import Smalltalk.Lib.Framing

/-!
# Terms of the join handshake

Byte strings are lists of symbols: a character, or one value that a primitive made, standing
for its base64 text. The primitives are ideal: two of their values are equal only when they
were made from equal arguments, except that two ephemeral keys agree on one secret.
-/

namespace Smalltalk.Join

open List

inductive Term where
  | char (c : Char)
  | data (n : Nat)
  | token (n : Nat)
  | payload (n : Nat)
  | memberKey (k : Nat)
  | memberPublic (k : Nat)
  | ephemeralKey (x : Nat)
  | ephemeralPublic (x : Nat)
  | shared (x y : Nat)
  | nil
  | cons (head tail : Term)
  | hash (message : Term)
  | mac (key message : Term)
  | signature (k : Nat) (message : Term)
  | sealKey (shared token aad : Term)
  | sealed (key nonce aad payload : Term)
  deriving DecidableEq, Repr

abbrev Bytes := List Term

def text (s : String) : Bytes := s.toList.map .char

def pack : Bytes → Term := List.foldr .cons .nil

theorem pack_injective : Function.Injective pack := by
  intro a
  induction a with
  | nil =>
    intro b h
    cases b with
    | nil => rfl
    | cons d b => simp [pack] at h
  | cons c a ih =>
    intro b h
    cases b with
    | nil => simp [pack] at h
    | cons d b =>
      obtain ⟨rfl, hr⟩ : c = d ∧ pack a = pack b := by simpa [pack] using h
      rw [ih hr]

def encode (value : Term) : Bytes := [value]

def decode : Bytes → Option Term
  | [.char _] => none
  | [value] => some value
  | _ => none

theorem decode_eq_some {bytes : Bytes} {value : Term} (h : decode bytes = some value) :
    bytes = encode value := by
  unfold decode at h
  split at h
  · cases h
  · cases h
    rfl
  · cases h

/-- The X25519 agreement of a private key with a peer's public key. -/
def agree (x : Nat) : Term → Option Term
  | .ephemeralPublic y => some (.shared (min x y) (max x y))
  | _ => none

theorem agree_eq_some {x : Nat} {p s : Term} (h : agree x p = some s) :
    ∃ y, p = .ephemeralPublic y ∧ s = .shared (min x y) (max x y) := by
  unfold agree at h
  split at h
  · exact ⟨_, rfl, by simpa using h.symm⟩
  · cases h

/-- Check an Ed25519 signature made by `key` over `message`. -/
def verifySignature (key message signature : Bytes) : Bool :=
  match decode key, decode signature with
  | some (.memberPublic k), some (.signature k' signed) => k = k' && signed = pack message
  | _, _ => false

theorem verifySignature_eq_true {key message s : Bytes} (h : verifySignature key message s = true) :
    ∃ k, key = encode (.memberPublic k) ∧ s = encode (.signature k (pack message)) := by
  unfold verifySignature at h
  split at h
  next k k' signed hk hs =>
    obtain ⟨rfl, rfl⟩ : k = k' ∧ signed = pack message := by simpa using h
    exact ⟨k, decode_eq_some hk, decode_eq_some hs⟩
  next => simp at h

def fingerprint (memberKey : Bytes) : Term := .hash ((decode memberKey).getD (pack memberKey))

def escape : Term → Bytes
  | .char c => (escapeChar c).map .char
  | t => [t]

def quote (s : Bytes) : Bytes := .char '"' :: (s.flatMap escape ++ [.char '"'])

def newline : Term := .char '\n'

theorem char_injective : Function.Injective Term.char := fun _ _ h => Term.char.inj h

theorem escape_cases (t : Term) : (∃ c, t = .char c) ∨ (escape t = [t] ∧ ∀ c, t ≠ .char c) := by
  cases t with
  | char c => exact .inl ⟨c, rfl⟩
  | _ => exact .inr ⟨rfl, fun _ => Term.noConfusion⟩

theorem head_escape (t : Term) : ∃ d r, escape t = d :: r ∧ d ≠ .char '"' := by
  rcases escape_cases t with ⟨c, rfl⟩ | ⟨ht, hn⟩
  · obtain ⟨d, r, hd, hq, -⟩ := head_escapeChar c
    exact ⟨.char d, r.map .char, by rw [escape, hd, map_cons], fun h => hq (Term.char.inj h)⟩
  · exact ⟨t, [], ht, hn _⟩

theorem framed_escape : Framed escape := by
  refine framed_of_prefix_free fun t u hp => ?_
  rcases escape_cases t with ⟨c, rfl⟩ | ⟨ht, htc⟩ <;> rcases escape_cases u with ⟨d, rfl⟩ | ⟨hu, hc⟩
  · rw [(framed_escapeChar.map char_injective).eq_of_begins hp]
  · obtain ⟨d, rest, hd, -⟩ := head_escapeChar c
    rw [escape, hd, hu, map_cons, cons_prefix_cons] at hp
    exact absurd hp.1.symm (hc d)
  · obtain ⟨e, rest, he, -⟩ := head_escapeChar d
    rw [ht, escape, he, map_cons, cons_prefix_cons] at hp
    exact absurd hp.1 (htc e)
  · rw [ht, hu, cons_prefix_cons] at hp
    exact hp.1

theorem framed_quote : Framed quote := by
  intro a b x y h
  rw [quote, quote, cons_append, cons_append, List.cons.injEq] at h
  exact framed_escape.terminated head_escape h.2

theorem newline_notMem_escape (t : Term) : newline ∉ escape t := by
  rcases escape_cases t with ⟨c, rfl⟩ | ⟨ht, hn⟩
  · rw [escape, newline, mem_map_of_injective char_injective]
    exact newline_notMem_escapeChar c
  · rw [ht, mem_singleton]
    exact (hn _).symm

theorem newline_notMem_quote (s : Bytes) : newline ∉ quote s := by
  have hq : newline ≠ .char '"' := by decide
  simp only [quote, mem_cons, mem_append, mem_flatMap, not_mem_nil, or_false, hq, false_or,
    not_exists, not_and]
  exact fun t _ => newline_notMem_escape t

def decimal (n : Nat) : Bytes := (Nat.toDigits 10 n).map .char

theorem decimal_injective : Function.Injective decimal := by
  intro a b h
  have hd := (map_injective_iff.mpr char_injective) h
  calc a = Nat.ofDigitChars 10 (Nat.toDigits 10 a) 0 := Nat.ofDigitChars_ten_toDigits.symm
    _ = Nat.ofDigitChars 10 (Nat.toDigits 10 b) 0 := by rw [hd]
    _ = b := Nat.ofDigitChars_ten_toDigits

theorem notMem_decimal {c : Char} (hc : c.isDigit = false) (n : Nat) : .char c ∉ decimal n := by
  rw [decimal, mem_map_of_injective char_injective]
  intro h
  have := Nat.isDigit_of_mem_toDigits (by decide) (by decide) h
  rw [hc] at this
  cases this

structure Held where
  tokens : Set Nat
  payloads : Set Nat
  members : Set Nat
  ephemerals : Set Nat

section
variable (held : Held) (seen : List Term)

/-- What the attacker can know: characters, data and public keys, what it holds,
what it has seen, and what the primitives make or open from these. -/
inductive Derives : Term → Prop
  | seen {t : Term} (h : t ∈ seen) : Derives t
  | char (c : Char) : Derives (.char c)
  | data (n : Nat) : Derives (.data n)
  | memberPublic (k : Nat) : Derives (.memberPublic k)
  | ephemeralPublic (x : Nat) : Derives (.ephemeralPublic x)
  | token {n : Nat} (h : n ∈ held.tokens) : Derives (.token n)
  | payload {n : Nat} (h : n ∈ held.payloads) : Derives (.payload n)
  | memberKey {k : Nat} (h : k ∈ held.members) : Derives (.memberKey k)
  | ephemeralKey {x : Nat} (h : x ∈ held.ephemerals) : Derives (.ephemeralKey x)
  | nil : Derives .nil
  | cons {a b : Term} (ha : Derives a) (hb : Derives b) : Derives (.cons a b)
  | head {a b : Term} (h : Derives (.cons a b)) : Derives a
  | tail {a b : Term} (h : Derives (.cons a b)) : Derives b
  | hash {m : Term} (h : Derives m) : Derives (.hash m)
  | mac {key m : Term} (hkey : Derives key) (hm : Derives m) : Derives (.mac key m)
  | signature {k : Nat} {m : Term} (hk : Derives (.memberKey k)) (hm : Derives m) :
      Derives (.signature k m)
  | agree {x : Nat} {peer secret : Term} (hx : Derives (.ephemeralKey x)) (hpeer : Derives peer)
      (h : agree x peer = some secret) : Derives secret
  | sealKey {secret token aad : Term} (hs : Derives secret) (ht : Derives token)
      (ha : Derives aad) :
      Derives (.sealKey secret token aad)
  | sealed {key nonce aad p : Term} (hk : Derives key) (hn : Derives nonce) (ha : Derives aad)
      (hp : Derives p) :
      Derives (.sealed key nonce aad p)
  | opened {key nonce aad p : Term} (h : Derives (.sealed key nonce aad p))
      (hk : Derives key) : Derives p

end

end Smalltalk.Join
