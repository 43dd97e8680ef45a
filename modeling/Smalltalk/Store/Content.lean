import Smalltalk.Fleet.Membership
import Smalltalk.Lib.Framing

/-!
# What a claim's id commits to

The id is the hash of the content with the fields of the body sorted, or as they were inserted.
SHA-256 over CBOR is a parameter. A text of canonical JSON can be read back, since what follows a
value never continues it.
-/

namespace Smalltalk

open List

namespace Value

abbrev Fields := List (String × Value)

/-- The keys of every object are distinct. -/
inductive Wf : Value → Prop where
  | null : Wf .null
  | bool (b : Bool) : Wf (.bool b)
  | number (n : Number) : Wf (.number n)
  | string (s : String) : Wf (.string s)
  | array {items : List Value} (each : ∀ item ∈ items, Wf item) : Wf (.array items)
  | object {fields : Fields} (keys : (fields.map (·.1)).Nodup)
      (each : ∀ field ∈ fields, Wf field.2) :
      Wf (.object fields)

/-- Objects have the same keys, in any order, with equal values. -/
inductive EqUpToOrder : Value → Value → Prop where
  | refl (value : Value) : EqUpToOrder value value
  | array {l m : List Value} (length : l.length = m.length)
      (each : ∀ (i : Nat) v w, l[i]? = some v → m[i]? = some w → EqUpToOrder v w) :
        EqUpToOrder (.array l) (.array m)
  | object {l m : Fields} (keys : (l.map (·.1)).Perm (m.map (·.1)))
      (each : ∀ key v w, (key, v) ∈ l → (key, w) ∈ m → EqUpToOrder v w) :
        EqUpToOrder (.object l) (.object m)

/-! ## Canonical values -/

def sortFields (fields : Fields) : Fields := fields.mergeSort fun a b => a.1 ≤ b.1

theorem sizeOf_item {items : List Value} {item : Value} (h : item ∈ items) :
    sizeOf item < sizeOf (array items) := by
  have := sizeOf_lt_of_mem h
  simp only [array.sizeOf_spec]
  omega

theorem sizeOf_field {fields : Fields} {field : String × Value} (h : field ∈ fields) :
    sizeOf field.2 < sizeOf (object fields) := by
  have := sizeOf_lt_of_mem h
  obtain ⟨key, value⟩ := field
  simp only [Prod.mk.sizeOf_spec, object.sizeOf_spec] at this ⊢
  omega

def canonicalJsonValue : Value → Value
  | .array values => .array (values.attach.map fun value => canonicalJsonValue value.1)
  | .object fields =>
    .object ((sortFields fields).attach.map fun field => (field.1.1, canonicalJsonValue field.1.2))
  | value => value
decreasing_by
  · exact sizeOf_item value.2
  · exact sizeOf_field (mem_mergeSort.mp field.2)

variable {v w : Value} {l m : Fields}

theorem canonical_array (items : List Value) :
    canonicalJsonValue (.array items) = .array (items.map canonicalJsonValue) := by
  rw [canonicalJsonValue, ← @attach_map_val _ _ items]

def canonicalFields (l : Fields) : Fields :=
  (sortFields l).map fun field => (field.1, canonicalJsonValue field.2)

theorem canonical_object (l : Fields) :
    canonicalJsonValue (.object l) = .object (canonicalFields l) := by
  rw [canonicalJsonValue, canonicalFields, ← @attach_map_val _ _ (sortFields l)]

theorem pairwise_canonicalFields (l : Fields) :
    (canonicalFields l).Pairwise fun a b => a.1 ≤ b.1 := by
  have hs := @pairwise_mergeSort _ (fun a b : String × Value => decide (a.1 ≤ b.1))
    (fun a b c => by simpa using @le_trans _ _ a.1 b.1 c.1)
      (fun a b => by simpa using le_total a.1 b.1) l
  exact pairwise_map.mpr (hs.imp of_decide_eq_true)

theorem keys_canonicalFields (l : Fields) : ((canonicalFields l).map (·.1)).Perm (l.map (·.1)) := by
  rw [canonicalFields, map_map]
  exact (mergeSort_perm l _).map _

theorem mem_canonicalFields {key : String} :
    (key, w) ∈ canonicalFields l ↔ ∃ v, (key, v) ∈ l ∧ v.canonicalJsonValue = w := by
  simp [canonicalFields, sortFields]

theorem canonical_idempotent (v : Value) :
    v.canonicalJsonValue.canonicalJsonValue = v.canonicalJsonValue := by
  induction v using canonicalJsonValue.induct with
  | case1 items ih =>
    rw [canonical_array, canonical_array, map_map]
    exact congrArg array (map_congr_left fun v hv => ih ⟨v, hv⟩)
  | case2 fields ih =>
    have hs : sortFields (canonicalFields fields) = canonicalFields fields :=
      mergeSort_of_pairwise ((pairwise_canonicalFields fields).imp decide_eq_true)
    rw [canonical_object, canonical_object, canonicalFields, hs, canonicalFields, map_map]
    exact congrArg object (map_congr_left fun f hf => Prod.ext rfl (ih ⟨f, hf⟩))
  | case3 v ha ho =>
    cases v with
    | array items => exact absurd rfl (ha items)
    | object fields => exact absurd rfl (ho fields)
    | _ => simp only [canonicalJsonValue]

theorem eqUpToOrder_of_canonical (hv : v.Wf) (hw : w.Wf)
    (h : v.canonicalJsonValue = w.canonicalJsonValue) :
    EqUpToOrder v w := by
  induction hv generalizing w with
  | array _ ih =>
    cases hw with
    | array hw =>
      simp only [canonical_array, array.injEq] at h
      refine .array (by simpa using congrArg length h) fun i v w hl hm => ?_
      exact ih v (mem_of_getElem? hl) (hw w (mem_of_getElem? hm))
        (by simpa [hl, hm] using congrArg (·[i]?) h)
    | _ => simp [canonicalJsonValue] at h
  | @object l hk _ ih =>
    cases hw with
    | @object m _ hw =>
      simp only [canonical_object, object.injEq] at h
      refine .object ((keys_canonicalFields l).symm.trans (h ▸ keys_canonicalFields m))
        fun key v w hl hm => ?_
      have hv := mem_canonicalFields.mpr ⟨v, hl, rfl⟩
      have hc := h ▸ mem_canonicalFields.mpr ⟨w, hm, rfl⟩
      have he := inj_on_of_nodup_map ((keys_canonicalFields l).nodup_iff.mpr hk) hv hc rfl
      exact ih _ hl (hw _ hm) (congrArg Prod.snd he)
    | _ => simp [canonicalJsonValue] at h
  | _ =>
    cases hw with
    | array | object => simp [canonicalJsonValue] at h
    | _ => simp_all [canonicalJsonValue, EqUpToOrder.refl]

theorem canonicalFields_subset (hk : l.map (·.1) ⊆ m.map (·.1))
    (h : ∀ key v w, (key, v) ∈ l → (key, w) ∈ m → v.canonicalJsonValue = w.canonicalJsonValue) :
    canonicalFields l ⊆ canonicalFields m := by
  rintro ⟨key, _⟩ hm
  obtain ⟨v, hv, rfl⟩ := mem_canonicalFields.mp hm
  obtain ⟨⟨_, w⟩, hw, rfl⟩ := mem_map.mp (hk (mem_map_of_mem hv))
  exact mem_canonicalFields.mpr ⟨w, hw, (h _ v w hv hw).symm⟩

theorem canonical_eq (h : EqUpToOrder v w) (hv : v.Wf) (hw : w.Wf) :
    v.canonicalJsonValue = w.canonicalJsonValue := by
  induction h with
  | refl => rfl
  | array hl _ ih =>
    cases hv with | array hv
    cases hw with | array hw
    rw [canonical_array, canonical_array]
    refine congrArg array (ext_getElem (by simpa using hl) fun i _ _ => ?_)
    rw [getElem_map, getElem_map]
    exact ih i _ _ (getElem?_eq_getElem _) (getElem?_eq_getElem _) (hv _ (getElem_mem _))
      (hw _ (getElem_mem _))
  | @object l m hk _ ih =>
    cases hv with | object hn hv
    cases hw with | object hn' hw
    have hn := (keys_canonicalFields l).nodup_iff.mpr hn
    have hn' := (keys_canonicalFields m).nodup_iff.mpr hn'
    have hs :=
      canonicalFields_subset hk.subset fun key v w hl hm => ih key v w hl hm (hv _ hl) (hw _ hm)
    have hs' :=
      canonicalFields_subset hk.symm.subset fun key w v hm hl =>
        (ih key v w hl hm (hv _ hl) (hw _ hm)).symm
    have hp :=
      (perm_ext_iff_of_nodup (.of_map _ hn) (.of_map _ hn')).mpr
        fun field => ⟨@hs field, @hs' field⟩
    -- the same fields, sorted by keys that are distinct
    rw [canonical_object, canonical_object]
    refine congrArg object (hp.eq_of_pairwise ?_ (pairwise_canonicalFields l)
      (pairwise_canonicalFields m))
    exact fun a b ha hb hab hle => inj_on_of_nodup_map hn ha (hs' hb) (hab.antisymm hle)

def numberChars : List Char := "0123456789+-.eE".toList

def wordChars : List Char := "nultrfas".toList ++ numberChars

/-- How numbers are printed, each as its own text. -/
structure NumberText where
  text : Number → List Char
  inj : Function.Injective text
  chars : ∀ n, text n ≠ [] ∧ text n ⊆ numberChars

def unary : Number → Char × Nat
  | .posInt n => ('0', n)
  | .negInt (.ofNat n) => ('+', n)
  | .negInt (.negSucc n) => ('-', n)
  | .float bits => ('.', bits.toNat)

instance : Inhabited NumberText where
  default :=
    { text := fun n => (unary n).1 :: replicate (unary n).2 '0'
      inj := by
        rintro (m | (m | m) | m) (n | (n | n) | n) h <;> simp_all [unary, UInt64.toNat_inj]
      chars := by
        have hs : ['0', '+', '-', '.'] ⊆ numberChars := by decide
        intro n
        have hn : (unary n).1 ∈ numberChars := by
          rcases n with _ | (_ | _) | _ <;>
            exact hs (by simp only [unary, mem_cons, true_or, or_true])
        exact ⟨cons_ne_nil _ _, cons_subset.mpr ⟨hn,
          fun c hc => eq_of_mem_replicate hc ▸ hs mem_cons_self⟩⟩ }

def quoted (s : String) : List Char := '"' :: (s.toList.flatMap escapeChar ++ ['"'])

def separated (texts : List (List Char)) : List Char := (lines ',' texts).tail

def toText (numbers : NumberText) : Value → List Char
  | .null => "null".toList
  | .bool b => (if b then "true" else "false").toList
  | .number n => numbers.text n
  | .string s => quoted s
  | .array items => '[' :: (separated (items.attach.map fun item => toText numbers item.1) ++ [']'])
  | .object fields => '\x7b' :: (separated (fields.attach.map fun field =>
      quoted field.1.1 ++ ':' :: toText numbers field.1.2) ++ ['\x7d'])
decreasing_by
  · exact sizeOf_item item.2
  · exact sizeOf_field field.2

def Stops (x : List Char) : Prop := ∀ c ∈ x.head?, c ∉ wordChars

section
variable {α : Type} {f : α → List Char} {as bs : List α} {a b x y : List Char} {close : Char}

def Reads (f : α → List Char) (a : α) : Prop :=
  ∀ b x y, Stops x → Stops y → f a ++ x = f b ++ y → a = b ∧ x = y

theorem word_inj (ha : a ⊆ wordChars) (hb : b ⊆ wordChars) (hx : Stops x) (hy : Stops y)
    (h : a ++ x = b ++ y) :
    a = b ∧ x = y := by
  have ht : ∀ {a x}, a ⊆ wordChars → Stops x → (a ++ x).takeWhile (· ∈ wordChars) = a := by
    intro a x ha hx
    rw [takeWhile_append_of_pos fun c hc => decide_eq_true (ha hc)]
    cases x with
    | nil => simp
    | cons c x => simp [hx c rfl]
  obtain rfl : a = b := by rw [← ht ha hx, h, ht hb hy]
  exact ⟨rfl, append_cancel_left h⟩

theorem framed_quoted : Framed quoted := by
  intro s t x y h
  have he : ∀ c, ∃ d r, escapeChar c = d :: r ∧ d ≠ '"' := by
    intro c
    obtain ⟨d, r, hd, hq, -⟩ := head_escapeChar c
    exact ⟨d, r, hd, hq⟩
  obtain ⟨hs, hx⟩ := framed_escapeChar.terminated he (cons.inj h).2
  exact ⟨String.toList_inj.mp hs, hx⟩

variable (hc : close ∉ wordChars ∧ close ≠ ',') (hr : ∀ a ∈ as, Reads f a)
include hc

theorem stops_lines (ts : List (List Char)) (x : List Char) :
    Stops (lines ',' ts ++ close :: x) := by
  cases ts with
  | nil => simpa [Stops, lines] using hc.1
  | cons t ts => exact fun c hc => Option.some.inj hc ▸ by decide

include hr

theorem lines_reads (h : lines ',' (as.map f) ++ close :: x = lines ',' (bs.map f) ++ close :: y) :
    as = bs ∧ x = y := by
  induction as generalizing bs with
  | nil =>
    cases bs with
    | nil => simpa [lines] using h
    | cons b bs => exact absurd (cons.inj h).1 hc.2
  | cons a as ih =>
    cases bs with
    | nil => exact absurd (cons.inj h).1.symm hc.2
    | cons b bs =>
      simp only [lines, map_cons, flatMap_cons, cons_append, append_assoc, cons.injEq,
        true_and] at h
      obtain ⟨rfl, ht⟩ := hr a mem_cons_self b _ _ (stops_lines hc _ x) (stops_lines hc _ y) h
      obtain ⟨rfl, hx⟩ := ih (fun a ha => hr a (mem_cons_of_mem _ ha)) ht
      exact ⟨rfl, hx⟩

theorem separated_reads (ho : ∀ b z t, f b ++ z ≠ close :: t)
    (h : separated (as.map f) ++ close :: x = separated (bs.map f) ++ close :: y) :
    as = bs ∧ x = y := by
  refine lines_reads hc hr ?_
  cases as with
  | nil =>
    cases bs with
    | nil => exact h
    | cons b bs => exact absurd (by simpa [separated, lines] using h.symm) (ho b _ _)
  | cons a as =>
    cases bs with
    | nil => exact absurd (by simpa [separated, lines] using h) (ho a _ _)
    | cons b bs => simpa [separated, lines] using h

end

def opening : Value → Option Char
  | .string _ => some '"'
  | .array _ => some '['
  | .object _ => some '\x7b'
  | _ => none

variable {numbers : NumberText}

theorem toText_word (h : opening v = none) :
    toText numbers v ≠ [] ∧ toText numbers v ⊆ wordChars := by
  cases v with
  | null => rw [toText]; decide
  | bool b => rw [toText]; revert b; decide
  | number n =>
    obtain ⟨hn, hs⟩ := numbers.chars n
    exact ⟨by rwa [toText], fun c hc => mem_append_right _ (hs (by rwa [toText] at hc))⟩
  | _ => cases h

theorem word_unique (hv : opening v = none) (hw : opening w = none)
    (h : toText numbers v = toText numbers w) :
    v = w := by
  have hs : ∀ t ∈ ["null".toList, "true".toList, "false".toList], ¬ t ⊆ numberChars := by decide
  have hn : ∀ n, ∀ t ∈ ["null".toList, "true".toList, "false".toList], numbers.text n ≠ t :=
    fun n t ht he => hs t ht (he ▸ (numbers.chars n).2)
  rcases v with _ | (_ | _) | m | _ | _ | _ <;> cases hv <;>
    rcases w with _ | (_ | _) | n | _ | _ | _ <;> cases hw <;>
    simp_all [toText, numbers.inj.eq_iff, eq_comm]

theorem head_toText (v : Value) : ∃ c r, toText numbers v = c :: r ∧ c ≠ ']' ∧
    opening v = if c ∈ wordChars then none else some c := by
  cases ho : opening v with
  | none =>
    obtain ⟨hn, hs⟩ := toText_word ho
    obtain ⟨c, r, hc⟩ := exists_cons_of_ne_nil hn
    have hm : c ∈ wordChars := hs (hc ▸ mem_cons_self)
    exact ⟨c, r, hc, fun h => absurd (h ▸ hm) (by decide), (if_pos hm).symm⟩
  | some c => cases v <;> cases ho <;> exact ⟨_, _, by rw [toText]; try rfl, by decide⟩

theorem opening_eq {x y : List Char} (h : toText numbers v ++ x = toText numbers w ++ y) :
    opening v = opening w := by
  obtain ⟨c, r, hc, -, ho⟩ := head_toText v
  obtain ⟨d, t, hd, -, hp⟩ := head_toText w
  rw [hc, hd] at h
  rw [ho, hp, (cons.inj h).1]

theorem toText_ne_bracket (v : Value) (x y : List Char) : toText numbers v ++ x ≠ ']' :: y := by
  intro h
  obtain ⟨c, r, hc, hn, -⟩ := head_toText v
  rw [hc] at h
  exact hn (cons.inj h).1

/-- What a text opens with says how it is read, up to where it ends. -/
theorem reads_toText (v : Value) : Reads (toText numbers) v := by
  intro w x y hx hy h
  have hw := opening_eq h
  induction v using toText.induct generalizing w x y with
  | case4 s =>
    cases w with
    | string t =>
      rw [toText, toText] at h
      obtain ⟨rfl, hx⟩ := framed_quoted h
      exact ⟨rfl, hx⟩
    | _ => simp [opening] at hw
  | case5 l ih =>
    cases w with
    | array m =>
      rw [toText, toText, @attach_map_val _ _ l, @attach_map_val _ _ m] at h
      simp only [cons_append, append_assoc, nil_append, cons.injEq, true_and] at h
      have hr : ∀ a ∈ l, Reads (toText numbers) a :=
        fun a ha b x y hx hy h => ih ⟨a, ha⟩ b x y hx hy h (opening_eq h)
      obtain ⟨rfl, hx⟩ := separated_reads (by decide) hr toText_ne_bracket h
      exact ⟨rfl, hx⟩
    | _ => simp [opening] at hw
  | case6 l ih =>
    cases w with
    | object m =>
      let field (f : String × Value) := quoted f.1 ++ ':' :: toText numbers f.2
      have hf : ∀ l, toText numbers (.object l) =
          '\x7b' :: (separated (l.map field) ++ ['\x7d']) := by
        intro l
        rw [toText, ← @attach_map_val _ _ l]
      simp only [hf, cons_append, append_assoc, nil_append, cons.injEq, true_and] at h
      have hr : ∀ a ∈ l, Reads field a := by
        rintro ⟨key, v⟩ ha ⟨key', w⟩ x y hx hy h
        simp only [field, append_assoc, cons_append] at h
        obtain ⟨rfl, ht⟩ := framed_quoted h
        have ht := (cons.inj ht).2
        obtain ⟨rfl, hx⟩ := ih ⟨_, ha⟩ w x y hx hy ht (opening_eq ht)
        exact ⟨rfl, hx⟩
      obtain ⟨rfl, hx⟩ := separated_reads (by decide) hr (fun b z t => by simp [field, quoted]) h
      exact ⟨rfl, hx⟩
    | _ => simp [opening] at hw
  | _ =>
    -- a word, and what follows it stops a word on both sides
    obtain ⟨ht, rfl⟩ := word_inj (toText_word rfl).2 (toText_word hw.symm).2 hx hy h
    exact ⟨word_unique rfl hw.symm ht, rfl⟩

def canonicalJsonText (numbers : NumberText) (v : Value) : List Char :=
  toText numbers v.canonicalJsonValue

end Value

/-! ## Claim ids -/

open Value

structure ClaimContent where
  batchId : String
  subject : String
  kind : String
  origin : String
  actor : Option String
  body : Value
  predecessors : List String

structure HashedClaim (Digest : Type) extends ClaimContent where
  id : Digest
  wf : body.Wf

section
variable {Digest : Type} (canonicalHash : ClaimContent → Digest)

def ClaimContent.sorted (content : ClaimContent) : ClaimContent :=
  { content with body := content.body.canonicalJsonValue }

def claimHash (content : ClaimContent) : Digest := canonicalHash content.sorted

def ClaimIdIsContentHash (claim : HashedClaim Digest) : Prop :=
  claimHash canonicalHash claim.toClaimContent = claim.id ∨
  canonicalHash claim.toClaimContent = claim.id

variable {canonicalHash}

theorem ClaimIdIsContentHash.exists_content {claim : HashedClaim Digest}
    (h : ClaimIdIsContentHash canonicalHash claim) :
    ∃ content, canonicalHash content = claim.id ∧ content.sorted = claim.sorted := by
  rcases h with h | h
  · exact ⟨_, h, by simp only [ClaimContent.sorted, canonical_idempotent]⟩
  · exact ⟨_, h, rfl⟩

/-- Texts of canonical values are equal up to the order of fields, and claims with one id have one
content up to that order. -/
theorem claim_id_commits (hh : Function.Injective canonicalHash) :
    (∀ v : Value, v.canonicalJsonValue.canonicalJsonValue = v.canonicalJsonValue) ∧
    (∀ numbers (v w : Value), v.Wf → w.Wf →
      (canonicalJsonText numbers v = canonicalJsonText numbers w ↔ EqUpToOrder v w)) ∧
    ∀ a b : HashedClaim Digest, ClaimIdIsContentHash canonicalHash a →
      ClaimIdIsContentHash canonicalHash b → a.id = b.id →
      a.toClaimContent = { b.toClaimContent with body := a.body } ∧ EqUpToOrder a.body b.body := by
  refine ⟨canonical_idempotent, fun numbers v w hv hw => ⟨fun h => ?_, fun h => ?_⟩,
    fun a b ha hb he => ?_⟩
  · refine eqUpToOrder_of_canonical hv hw (@reads_toText numbers _ _ [] [] nofun nofun ?_).1
    rw [append_nil, append_nil]
    exact h
  · rw [canonicalJsonText, canonical_eq h hv hw, canonicalJsonText]
  · obtain ⟨content, hc, hs⟩ := ha.exists_content
    obtain ⟨content', hc', hs'⟩ := hb.exists_content
    obtain rfl : content = content' := hh (hc.trans (he.trans hc'.symm))
    have hs := hs.symm.trans hs'
    refine ⟨congrArg (fun content : ClaimContent => { content with body := a.body }) hs, ?_⟩
    exact eqUpToOrder_of_canonical a.wf b.wf (congrArg ClaimContent.body hs)

/-- A claim hashed with its fields sorted, and one that has them so. -/
theorem claim_id_commits_sorted : ∃ a b : HashedClaim ClaimContent, a.id = b.id ∧ a.body ≠ b.body ∧
    EqUpToOrder a.body b.body ∧
    canonicalJsonText default a.body = canonicalJsonText default b.body := by
  let body (k k' : String) : Value := .object [(k, .null), (k', .null)]
  have hw : ∀ k k', k ≠ k' → (body k k').Wf :=
    fun k k' hk => .object (by simpa using hk) (by simp [Wf.null])
  have hs : (body "b" "a").canonicalJsonValue = body "a" "b" := by
    have hd : ¬ "b" ≤ "a" := by decide
    simp [body, canonical_object, canonicalFields, sortFields, mergeSort, canonicalJsonValue, hd]
  let content : Value → ClaimContent := (⟨"batch", "subject", "kind", "origin", none, ·, []⟩)
  let a : HashedClaim ClaimContent :=
    ⟨content (body "b" "a"), content (body "a" "b"), hw _ _ (by decide)⟩
  let b : HashedClaim ClaimContent :=
    ⟨content (body "a" "b"), content (body "a" "b"), hw _ _ (by decide)⟩
  obtain ⟨-, ht, hc⟩ := claim_id_commits Function.injective_id
  have he := (hc a b (.inl (congrArg content hs)) (.inr rfl) rfl).2
  exact ⟨a, b, rfl, by simp [a, b, content, body], he, (ht default _ _ a.wf b.wf).mpr he⟩

end

end Smalltalk
