import Smalltalk.Canonical.Tables
import Smalltalk.Lib.Texts

/-!
# One canonical order

Claims are put in order by SQL's ORDER BY over `components`, by the row comparison of
`after_sql`, by the tuple of `claim_key` and by the bytes of `sortable_key`.
-/

namespace Smalltalk.Canonical

open List Option Table Ordering UInt64

/-! ## In SQL -/

inductive SqlValue where
  | null
  | integer (value : Nat)
  | text (value : Text)
  deriving DecidableEq

/-- SQLite's order of values of different classes. -/
def compareValue : SqlValue → SqlValue → Ordering
  | .null, .null => .eq
  | .null, _ => .lt
  | _, .null => .gt
  | .integer a, .integer b => compare a b
  | .integer _, .text _ => .lt
  | .text _, .integer _ => .gt
  | .text a, .text b => compareBytes a b

def components (db : Db) (id : Text) (claim : ClaimRow) : List SqlValue :=
  let batch := db.batches.get? claim.batchId
  [.integer (sqlLength claim.acceptedAtUnixMs), .text claim.acceptedAtUnixMs,
    (batch.map fun batch => .text batch.origin).getD .null,
    (batch.map fun batch => .integer batch.replicaSequence).getD .null,
    .text claim.batchId, .integer (position db id claim), .text id]

/-- How ORDER BY `order_sql` compares two claims. -/
def orderSql (db : Db) (descending : Bool) (a b : Text × ClaimRow) : Ordering :=
  List.compareLex (fun a b => if descending then compareValue b a else compareValue a b)
    (components db a.1 a.2) (components db b.1 b.2)

/-- `(…) > (…)` of row values, unknown from the first NULL on. -/
def rowGreater : List SqlValue → List SqlValue → Option Bool
  | a :: as, b :: bs =>
    if a = .null ∨ b = .null then none
    else match compareValue a b with
      | .gt => some true
      | .lt => some false
      | .eq => rowGreater as bs
  | _, _ => some false

def afterSql (db : Db) (left right : Text × ClaimRow) : Option Bool :=
  rowGreater (components db left.1 left.2) (components db right.1 right.2)

/-! ## As keys -/

structure ClaimKey where
  time : BitVec 128
  writer : Text
  sequence : UInt64
  batch : Text
  position : UInt64
  id : Text
  deriving DecidableEq

def ClaimKey.compare (a b : ClaimKey) : Ordering :=
  (Ord.compare a.time.toNat b.time.toNat).then <| (compareBytes a.writer b.writer).then <|
    (Ord.compare a.sequence.toNat b.sequence.toNat).then <| (compareBytes a.batch b.batch).then <|
      (Ord.compare a.position.toNat b.position.toNat).then <| compareBytes a.id b.id

inductive ParseError where
  | empty
  | invalidDigit
  | overflow
  deriving DecidableEq

def parseDigits : Nat → Text → Except ParseError Nat
  | value, [] => .ok value
  | value, byte :: text =>
    if 48 ≤ byte.toNat ∧ byte.toNat < 58 then
      let next := value * 10 + (byte.toNat - 48)
      if next < 2 ^ 128 then parseDigits next text else .error .overflow
    else .error .invalidDigit

def parseU128 : Text → Except ParseError Nat
  | [] => .error .empty
  | [byte] => parseDigits 0 [byte]
  | byte :: text => if byte = 43 then parseDigits 0 text else parseDigits 0 (byte :: text)

inductive KeyError where
  | noRows
  | time (error : ParseError)
  deriving DecidableEq

def claimKey (db : Db) (id : Text) : Except KeyError ClaimKey :=
  match db.claims.get? id with
  | none => .error .noRows
  | some claim => match db.batches.get? claim.batchId with
    | none => .error .noRows
    | some batch => match parseU128 claim.acceptedAtUnixMs with
      | .error error => .error (.time error)
      | .ok time => .ok
          { time := .ofNat 128 time, writer := batch.origin,
            sequence := .ofNat batch.replicaSequence
            batch := claim.batchId, position := .ofNat (position db id claim), id }

def sortableKey (key : ClaimKey) : List UInt8 :=
  numberBytes 16 key.time.toNat ++ (escape key.writer ++ (numberBytes 8 key.sequence.toNat ++
    (escape key.batch ++ (numberBytes 8 key.position.toNat ++ escape key.id))))

/-! ## Bytes and keys -/

theorem compare_sortableKey (a b : ClaimKey) :
    compareBytes (sortableKey a) (sortableKey b) = a.compare b := by
  have ht : ∀ key : ClaimKey, key.time.toNat < 256 ^ 16 := fun key => key.time.isLt
  have hn : ∀ n : UInt64, n.toNat < 256 ^ 8 := fun n => n.toNat_lt
  have hl := orderly_escape a.id b.id [] []
  rw [append_nil, append_nil, compareBytes_nil_nil, then_eq] at hl
  rw [sortableKey, sortableKey, compare_numberBytes 16 (ht a) (ht b), orderly_escape,
    compare_numberBytes 8 (hn _) (hn _), orderly_escape, compare_numberBytes 8 (hn _) (hn _), hl,
    ClaimKey.compare]

theorem ClaimKey.compare_eq_eq {a b : ClaimKey} : a.compare b = .eq ↔ a = b := by
  rw [ClaimKey.compare]
  simp only [then_eq_eq, compareBytes_eq_eq, Nat.compare_eq_eq, UInt64.toNat_inj, BitVec.toNat_inj]
  cases a
  cases b
  simp

theorem sortableKey_injective : Function.Injective sortableKey := by
  intro a b h
  rw [← ClaimKey.compare_eq_eq, ← compare_sortableKey, compareBytes_eq_eq]
  exact h

theorem ClaimKey.compare_swap (a b : ClaimKey) : (a.compare b).swap = b.compare a := by
  simp only [ClaimKey.compare, swap_then, Nat.compare_swap, compareBytes_swap]

/-! ## Columns and keys -/

theorem le_foldl_digits (digits : List Nat) :
    ∀ value, value ≤ digits.foldl (fun value d => value * 10 + d) value := by
  induction digits with
  | nil => exact fun value => Nat.le_refl value
  | cons d digits ih =>
    intro value
    have := ih (value * 10 + d)
    simp only [foldl_cons]
    omega

/-- Reading stops early only where the whole number would not fit. -/
theorem parseDigits_digits {digits : List Nat} (hg : ∀ digit ∈ digits, digit < 10) : ∀ value,
    digits.foldl (fun value digit => value * 10 + digit) value < 2 ^ 128 →
      parseDigits value (digits.map digitByte) =
        .ok (digits.foldl (fun value digit => value * 10 + digit) value) := by
  induction digits with
  | nil => exact fun value _ => rfl
  | cons digit digits ih =>
    intro value hf
    have ht : digit < 10 := hg digit mem_cons_self
    have hn := le_foldl_digits digits (value * 10 + digit)
    rw [foldl_cons] at hf
    rw [map_cons, parseDigits, toNat_digitByte ht, if_pos (by omega)]
    simp only [Nat.add_sub_cancel_left]
    rw [if_pos (by omega), ih (fun d hd => hg d (mem_cons_of_mem _ hd)) _ hf, foldl_cons]

theorem parseU128_decimal {time : Nat} (h : time < 2 ^ 128) :
    parseU128 (decimal time) = .ok time := by
  have hs : spell 10 (bigEndian 10 (Nat.log 10 time + 1) time) = time := by
    rw [spell_bigEndian, Nat.mod_eq_of_lt (Nat.lt_pow_succ_log_self (by omega) time)]
  have hd := bigEndian_lt (show 0 < 10 by omega) (Nat.log 10 time + 1) time
  have hp : parseDigits 0 (decimal time) = .ok time := by
    have := parseDigits_digits hd 0 (by rw [← spell, hs]; exact h)
    rwa [← spell, hs] at this
  rw [← hp]
  -- The first byte is a digit, never a sign.
  have hl : digitByte (time / 10 ^ Nat.log 10 time % 10) ≠ 43 := by
    intro heq
    have := congrArg UInt8.toNat heq
    rw [toNat_digitByte (Nat.mod_lt _ (by omega))] at this
    have h43 : (43 : UInt8).toNat = 43 := rfl
    omega
  rw [decimal, bigEndian, map_cons]
  cases (bigEndian 10 (Nat.log 10 time) time).map digitByte with
  | nil => rfl
  | cons b text => rw [parseU128, if_neg hl]; exact cons_ne_nil b text

theorem sqlLength_decimal (n : Nat) : sqlLength (decimal n) = (decimal n).length := by
  have hb : ∀ b ∈ decimal n, 48 ≤ b.toNat ∧ b.toNat < 58 := by
    intro b hb
    obtain ⟨d, hd, rfl⟩ := List.mem_map.mp hb
    have := bigEndian_lt (show 0 < 10 by omega) _ _ d hd
    rw [toNat_digitByte this]
    omega
  refine sqlLength_eq_length (fun hz => ?_) fun b hm => ?_
  · exact absurd (hb 0 hz).1 (by decide)
  · have := hb b hm
    omega

def ClaimKey.columns (key : ClaimKey) : List SqlValue :=
  [.integer (decimal key.time.toNat).length, .text (decimal key.time.toNat), .text key.writer,
    .integer key.sequence.toNat, .text key.batch, .integer key.position.toNat, .text key.id]

theorem claimKey_columns {db : Db} (hd : db.Sound) {id : Text} {claim : ClaimRow}
    (hc : db.claims.get? id = some claim) :
    ∃ key, claimKey db id = .ok key ∧ components db id claim = key.columns := by
  obtain ⟨batch, hb⟩ := hd.batch id claim hc
  obtain ⟨time, ht, ha⟩ := hd.accepted id claim hc
  have hs := hd.sequences claim.batchId batch hb
  have hlt := hd.position_lt hc
  have hp := parseU128_decimal ht
  have hk : claimKey db id = .ok
      { time := .ofNat 128 time, writer := batch.origin, sequence := .ofNat batch.replicaSequence
        batch := claim.batchId, position := .ofNat (position db id claim), id } := by
    simp only [claimKey, hc, hb, ha, hp]
  refine ⟨_, hk, ?_⟩
  have ht : (BitVec.ofNat 128 time).toNat = time := by rw [BitVec.toNat_ofNat, Nat.mod_eq_of_lt ht]
  simp only [components, ClaimKey.columns, hb, ha, sqlLength_decimal, ht, map_some,
    getD_some, toNat_ofNat_of_lt' (show batch.replicaSequence < size by unfold size; omega),
    toNat_ofNat_of_lt' (show position db id claim < size by unfold size; omega)]

theorem compare_columns (a b : ClaimKey) :
    List.compareLex compareValue a.columns b.columns = a.compare b := by
  simp only [ClaimKey.columns, List.compareLex_cons_cons, List.compareLex_nil_nil,
    compareValue, then_eq, ClaimKey.compare]
  rw [← then_assoc, compare_decimal]

theorem compare_columns_desc (a b : ClaimKey) :
    List.compareLex (fun x y => compareValue y x) a.columns b.columns = b.compare a := by
  simp only [ClaimKey.columns, List.compareLex_cons_cons, List.compareLex_nil_nil,
    compareValue, then_eq, ClaimKey.compare]
  rw [← then_assoc, compare_decimal]

theorem rowGreater_eq {l : List SqlValue} :
    ∀ {m : List SqlValue}, l.length = m.length → .null ∉ l → .null ∉ m →
    rowGreater l m = some (decide (List.compareLex compareValue l m = .gt)) := by
  induction l with
  | nil =>
    intro m hn _ _
    obtain rfl : m = [] := eq_nil_of_length_eq_zero hn.symm
    rfl
  | cons a l ih =>
    intro m hn hl hm
    cases m with
    | nil => simp at hn
    | cons b m =>
      have ha : a ≠ .null := fun h => hl (h ▸ mem_cons_self)
      have hb : b ≠ .null := fun h => hm (h ▸ mem_cons_self)
      have ih :=
        ih (by simpa using hn) (fun h => hl (mem_cons_of_mem _ h)) fun h => hm (mem_cons_of_mem _ h)
      rw [rowGreater, if_neg (by simp [ha, hb]), List.compareLex_cons_cons]
      cases compareValue a b with
      | lt => rfl
      | gt => rfl
      | eq => exact ih

theorem afterSql_columns (a b : ClaimKey) :
    rowGreater a.columns b.columns = some (decide (b.compare a = .lt)) := by
  have hn : ∀ key : ClaimKey, .null ∉ key.columns := by simp [ClaimKey.columns]
  have hl : a.columns.length = b.columns.length := rfl
  rw [rowGreater_eq hl (hn a) (hn b), compare_columns, ← ClaimKey.compare_swap b a]
  cases b.compare a <;> rfl

/-- Stored claims have keys, and the four orders are one. -/
theorem canonical_orders_agree {db : Db} (hdb : db.Sound) (left right : Text × ClaimRow)
    (hleft : db.claims.get? left.1 = some left.2) (hright : db.claims.get? right.1 = some right.2) :
    (∃ a b, claimKey db left.1 = .ok a ∧ claimKey db right.1 = .ok b ∧
      orderSql db false left right = a.compare b ∧ orderSql db true left right = b.compare a ∧
      afterSql db left right = some (decide (b.compare a = .lt)) ∧
      compareBytes (sortableKey a) (sortableKey b) = a.compare b) ∧
    ∀ a b, a ≠ b → sortableKey a ≠ sortableKey b := by
  obtain ⟨a, ha, hcomponents⟩ := claimKey_columns hdb hleft
  obtain ⟨b, hb, hc⟩ := claimKey_columns hdb hright
  refine ⟨⟨a, b, ha, hb, ?_, ?_, ?_, compare_sortableKey a b⟩,
    fun a b hn h => hn (sortableKey_injective h)⟩
  · rw [orderSql, hcomponents, hc]
    exact compare_columns a b
  · rw [orderSql, hcomponents, hc]
    exact compare_columns_desc a b
  · rw [afterSql, hcomponents, hc, afterSql_columns]

def sampleDb : Db where
  batches := ⟨[([98], ⟨[119], 2⟩)], by decide⟩
  claims := ⟨[([99, 0], ⟨1, [98], [49, 48]⟩), ([99], ⟨2, [98], [57]⟩)], by decide⟩
  lastIndex := 2
  positions := ⟨[([99], 4)], by decide⟩
  records := ∅

theorem sampleDb_sound : sampleDb.Sound := by
  have hc : ∀ id claim, sampleDb.claims.get? id = some claim →
      claim = ⟨1, [98], [49, 48]⟩ ∨ claim = ⟨2, [98], [57]⟩ := by
    intro id claim h
    have := mem_rows.mpr h
    simp only [sampleDb, mem_cons, Prod.mk.injEq, not_mem_nil, or_false] at this
    exact this.imp And.right And.right
  constructor
  case batch =>
    intro id claim h
    rcases hc id claim h with rfl | rfl <;> exact ⟨⟨[119], 2⟩, by decide⟩
  case accepted =>
    intro id claim h
    rcases hc id claim h with rfl | rfl
    · exact ⟨10, by decide, by decide +kernel⟩
    · exact ⟨9, by decide, by decide +kernel⟩
  case indexed =>
    intro id claim h
    rcases hc id claim h with rfl | rfl <;> decide
  case distinct => decide
  case lastIndex => decide
  case sequences =>
    intro id batch h
    have := mem_rows.mpr h
    simp only [sampleDb, mem_singleton, Prod.mk.injEq] at this
    rw [this.2]
    decide
  case stored =>
    intro id place h
    have := mem_rows.mpr h
    simp only [sampleDb, mem_singleton, Prod.mk.injEq] at this
    rw [this.2]
    decide
  case recorded =>
    intro ref record h
    cases h

theorem sampleDb_orders_agree :
    ∃ a b, claimKey sampleDb [99, 0] = .ok a ∧ claimKey sampleDb [99] = .ok b ∧
      compareBytes (sortableKey a) (sortableKey b) = a.compare b ∧
      sortableKey a ≠ sortableKey b := by
  obtain ⟨⟨a, b, ha, hb, -, -, -, hy⟩, hd⟩ := canonical_orders_agree sampleDb_sound
    ([99, 0], ⟨1, [98], [49, 48]⟩) ([99], ⟨2, [98], [57]⟩) (by decide) (by decide)
  refine ⟨a, b, ha, hb, hy, hd a b ?_⟩
  rintro rfl
  have : (claimKey sampleDb [99, 0]).toOption.map (·.time.toNat) =
      (claimKey sampleDb [99]).toOption.map (·.time.toNat) := by
    rw [ha, hb]
  revert this
  decide +kernel

end Smalltalk.Canonical
