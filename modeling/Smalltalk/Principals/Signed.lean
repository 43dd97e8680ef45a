import Smalltalk.Principals.Judge
import Smalltalk.Store.Content

/-!
# What a signature commits to

The signed bytes are lines of text, in one of two formats. A reader can tell the lines apart
when no text in them holds a line break, and a field's name from its value whatever the name is.
-/

namespace Smalltalk.Value

open List

def get (fields : Value) (name : String) : Value :=
  match fields with
  | .object fields => (fields.lookup name).getD .null
  | _ => .null

/-! ## Quotation marks in a JSON text -/

inductive Reading where
  | outside
  | inside
  | escaped
  | refused
  deriving DecidableEq

/-- Inside or outside of a string. Line breaks are read nowhere, and an equals sign only inside. -/
def Reading.step : Reading → Char → Reading
  | .outside, c =>
    if c = '"' then .inside else if c = '\\' ∨ c = '=' ∨ c = '\n' then .refused else .outside
  | .inside, c =>
    if c = '"' then .outside else if c = '\\' then .escaped
    else if c = '\n' then .refused else .inside
  | .escaped, c => if c = '\n' then .refused else .inside
  | .refused, _ => .refused

/-- Read from outside the text ends outside, and it never ends outside read from inside. -/
structure Balanced (text : List Char) : Prop where
  outside : text.foldl Reading.step .outside = .outside
  inside : text.foldl Reading.step .inside = .inside ∨ text.foldl Reading.step .inside = .refused

theorem foldl_refused (text : List Char) : text.foldl Reading.step .refused = .refused := by
  induction text with
  | nil => rfl
  | cons c text ih => exact ih

variable {a b : List Char}

theorem Balanced.append (ha : Balanced a) (hb : Balanced b) : Balanced (a ++ b) := by
  constructor
  · rw [foldl_append, ha.outside, hb.outside]
  · rcases ha.inside with h | h
    · simpa only [foldl_append, h] using hb.inside
    · exact .inr (by rw [foldl_append, h, foldl_refused])

theorem balanced_of_plain (h : ∀ c ∈ a, c ∉ ['"', '\\', '=', '\n']) : Balanced a := by
  induction a with
  | nil => exact ⟨rfl, .inl rfl⟩
  | cons c a ih =>
    have hc := h c mem_cons_self
    have hr := ih fun d hd => h d (mem_cons_of_mem c hd)
    refine Balanced.append (a := [c]) ?_ hr
    simp only [mem_cons, not_mem_nil, or_false, not_or] at hc
    constructor <;> simp [Reading.step, hc]

theorem foldl_escapes : ∀ p ∈ jsonEscapes,
    (escapeChar p.1).foldl Reading.step .inside = .inside ∧
    (escapeChar p.1).foldl Reading.step .outside = .refused := by
  decide +kernel

theorem foldl_escapeChar (c : Char) :
    (escapeChar c).foldl Reading.step .inside = .inside ∧
    ((escapeChar c).foldl Reading.step .outside = .outside ∨
      (escapeChar c).foldl Reading.step .outside = .refused) := by
  rcases escapeChar_cases c with ⟨p, hp, rfl⟩ | ⟨hc, hb, hq, hn⟩
  · exact ⟨(foldl_escapes p hp).1, .inr (foldl_escapes p hp).2⟩
  · rw [hc]
    by_cases he : c = '=' <;> simp [Reading.step, hb, hq, hn, he]

theorem balanced_quoted (s : String) : Balanced (quoted s) := by
  have hi : ∀ l : List Char, (l.flatMap escapeChar).foldl Reading.step .inside = .inside := by
    intro l
    induction l with
    | nil => rfl
    | cons c l ih => rw [flatMap_cons, foldl_append, (foldl_escapeChar c).1, ih]
  have ho : ∀ l : List Char, (l.flatMap escapeChar).foldl Reading.step .outside = .outside ∨
      (l.flatMap escapeChar).foldl Reading.step .outside = .refused := by
    intro l
    induction l with
    | nil => exact .inl rfl
    | cons c l ih =>
      rw [flatMap_cons, foldl_append]
      rcases (foldl_escapeChar c).2 with h | h
      · rwa [h]
      · exact .inr (by rw [h, foldl_refused])
  constructor
  · rw [quoted, foldl_cons, foldl_append]
    exact congrArg (foldl Reading.step · ['"']) (hi s.toList)
  · rw [quoted, foldl_cons, foldl_append]
    rcases ho s.toList with h | h
    · exact .inl (congrArg (foldl Reading.step · ['"']) h)
    · exact .inr (congrArg (foldl Reading.step · ['"']) h)

theorem balanced_separated {texts : List (List Char)} (h : ∀ text ∈ texts, Balanced text) :
    Balanced (separated texts) := by
  have hl : ∀ texts : List (List Char), (∀ text ∈ texts, Balanced text) →
      Balanced (lines ',' texts) := by
    intro texts h
    induction texts with
    | nil => exact ⟨rfl, .inl rfl⟩
    | cons text texts ih =>
      have hc : Balanced [','] := balanced_of_plain (by simp)
      exact (hc.append (h text mem_cons_self)).append
        (ih fun t ht => h t (mem_cons_of_mem text ht))
  cases texts with
  | nil => exact ⟨rfl, .inl rfl⟩
  | cons text texts =>
    exact (h text mem_cons_self).append (hl texts fun t ht => h t (mem_cons_of_mem text ht))

theorem balanced_toText (numbers : NumberText) (v : Value) : Balanced (toText numbers v) := by
  have hp : ['"', '\\', '=', '\n'].all (· ∉ wordChars) := by decide
  have hw : ∀ v : Value, opening v = none → Balanced (toText numbers v) :=
    fun v hv => balanced_of_plain fun c hc hm =>
      of_decide_eq_true (all_eq_true.mp hp c hm) ((toText_word hv).2 hc)
  have hs : ∀ c ∈ ['[', ']', '\x7b', '\x7d', ':'], Balanced [c] :=
    fun c hc => balanced_of_plain (by simp at hc ⊢; rcases hc with h | h | h | h | h <;> simp [h])
  induction v using toText.induct with
  | case4 s =>
    rw [toText]
    exact balanced_quoted s
  | case5 l ih =>
    rw [toText]
    refine (hs '[' (by simp)).append ((balanced_separated ?_).append (hs ']' (by simp)))
    intro t ht
    obtain ⟨item, -, rfl⟩ := mem_map.mp ht
    exact ih item
  | case6 l ih =>
    rw [toText]
    refine (hs '\x7b' (by simp)).append ((balanced_separated ?_).append (hs '\x7d' (by simp)))
    intro t ht
    obtain ⟨field, -, rfl⟩ := mem_map.mp ht
    exact (balanced_quoted _).append ((hs ':' (by simp)).append (ih field))
  | _ => exact hw _ rfl

theorem newline_notMem_of_balanced (h : Balanced a) : '\n' ∉ a := by
  intro hm
  obtain ⟨x, y, rfl⟩ := append_of_mem hm
  have hr : ∀ state : Reading, state.step '\n' = .refused := by rintro (_ | _ | _ | _) <;> rfl
  have := h.outside
  rw [foldl_append, foldl_cons, hr, foldl_refused] at this
  cases this

/-- After a name and an equals sign only the value is a JSON text. -/
theorem name_value_inj {x y : List Char} (ha : Balanced a) (hb : Balanced b)
    (h : x ++ '=' :: a = y ++ '=' :: b) : x = y ∧ a = b := by
  have hn : ∀ {a b : List Char}, Balanced a → Balanced b → ∀ z, a ≠ z ++ '=' :: b := by
    rintro a b ha hb z rfl
    have hs : ∀ state : Reading, state.step '=' = .inside ∨ state.step '=' = .refused := by
      rintro (_ | _ | _ | _) <;> simp [Reading.step]
    have ho := ha.outside
    rw [foldl_append, foldl_cons] at ho
    rcases hs (z.foldl Reading.step .outside) with h | h
    · rcases hb.inside with hb | hb <;> simp [h, hb] at ho
    · simp [h, foldl_refused] at ho
  rcases append_eq_append_iff.mp h with ⟨z, rfl, hz⟩ | ⟨z, rfl, hz⟩
  · cases z with
    | nil => simpa using hz
    | cons c z => exact absurd (cons.inj hz).2 (hn ha hb z)
  · cases z with
    | nil => simpa using hz.symm
    | cons c z => exact absurd (cons.inj hz).2 (hn hb ha z)

end Smalltalk.Value

namespace Smalltalk.Principals

open List Value

/-! ## The lines of the signed bytes -/

section
variable {library : Library}

namespace ClaimSignature
variable (signature : ClaimSignature) (claim : Judged library)

/-- The bytes whose signature `verifies` checks. -/
def signedBytes : Option String :=
  match signature.format with
  | none => some (signature.signingBytes claim.content)
  | some format =>
    if format = fieldsFormat ∧ signature.signedFields ≠ [] then
      some (signature.fieldsSigningBytes claim)
    else none

theorem verifies_eq_any : signature.verifies claim = (signature.signedBytes claim).any
    (library.verifyKeySignature signature.key · signature.signature) := by
  unfold verifies signedBytes
  cases signature.format with
  | none => rfl
  | some format => dsimp only; split <;> rfl

def signerLines : List String :=
  [signature.signer, signature.onBehalf.getD "", signature.key, ",".intercalate signature.chain,
    signature.nonce, toString signature.signedAtUnixMs]

def fieldLine (name : String) : String := name ++ ("=" ++ library.fieldText claim.fields name)

/-- The lines before those of the signer, when fields are signed. -/
def claimLines : List String :=
  [claim.subject, claim.kind, claim.actor.getD ""] ++
    (sortedNames signature.signedFields).map (fieldLine claim)

end ClaimSignature

variable {signature : ClaimSignature} {claim : Judged library} {bytes : String}

open ClaimSignature

theorem lines_signerLines :
    lines '\n' (signature.signerLines.map String.toList) = '\n' :: signature.signerText.toList := by
  have ht : ∀ s : String, toString s = s := fun _ => rfl
  simp [signerText, signerLines, lines, ht]

theorem lines_fieldLines (claim : Judged library) (names : List String) (x : List Char) :
    lines '\n' ((names.map (fieldLine claim)).map String.toList) ++ '\n' :: x =
      '\n' :: ((String.join (names.map fun name =>
        name ++ "=" ++ library.fieldText claim.fields name ++ "\n")).toList ++ x) := by
  induction names with
  | nil => rfl
  | cons name names ih => simpa [lines, fieldLine, String.toList_join] using ih

/-- The domain is the first line, and says the format. -/
theorem signedBytes_lines (h : signature.signedBytes claim = some bytes) :
    signature.format = none ∧ bytes.toList = claimSignatureDomain.toList ++
      lines '\n' ((claim.content :: signature.signerLines).map String.toList) ∨
    signature.format = some fieldsFormat ∧ bytes.toList = fieldsDomain.toList ++
      lines '\n' ((signature.claimLines claim ++ signature.signerLines).map String.toList) := by
  have ht : ∀ s : String, toString s = s := fun _ => rfl
  unfold signedBytes at h
  split at h
  · rename_i hf
    cases h
    refine .inl ⟨hf, ?_⟩
    rw [map_cons, lines, flatMap_cons, ← lines, lines_signerLines]
    simp [signingBytes, ht]
  · rename_i hf
    split at h
    · rename_i hs
      cases h
      refine .inr ⟨hf.trans (congrArg some hs.1), ?_⟩
      have hl := lines_fieldLines claim (sortedNames signature.signedFields)
        signature.signerText.toList
      rw [← lines_signerLines] at hl
      simp only [lines, claimLines, map_append, flatMap_append] at hl ⊢
      rw [append_assoc, hl]
      simp [fieldsSigningBytes, ht]
    · cases h

end

/-! ## Signed claims -/

def contentDomain : String := "smallclaims.claim-content.v1"

/-- What other crates compute. The hash, in hexadecimal, is free of collisions. -/
structure Crates where
  numbers : NumberText
  fromFields : Value → Option KeyGrant
  verifyKeySignature : String → String → String → Bool
  canonicalHash : String × String × String × Option String × Value → String
  injective : Function.Injective canonicalHash
  oneLine : ∀ content, '\n' ∉ (canonicalHash content).toList

def Crates.library (crates : Crates) : Library where
  Value := Value
  fromFields := crates.fromFields
  fieldText fields name := .ofList (canonicalJsonText crates.numbers (fields.get name))
  verifyKeySignature := crates.verifyKeySignature

structure SignedClaim where
  id : String
  subject : String
  kind : String
  actor : Option String
  body : Value
  fields : Value
  signature : ClaimSignature

section
open ClaimSignature

variable (crates : Crates)

def contentDigest (subject kind : String) (actor : Option String) (body : Value) : String :=
  crates.canonicalHash (contentDomain, subject, kind, actor, body.canonicalJsonValue)

namespace SignedClaim
variable (claim : SignedClaim)

def judged : Judged crates.library where
  id := claim.id
  subject := claim.subject
  kind := claim.kind
  actor := claim.actor
  content := contentDigest crates claim.subject claim.kind claim.actor claim.body
  fields := claim.fields

def signedBytes : Option String := claim.signature.signedBytes (claim.judged crates)

def names : List String := sortedNames claim.signature.signedFields

/-- No line break stands in the texts of the signer or, with fields signed, of the claim. -/
structure Unbroken : Prop where
  signer : ∀ line ∈ claim.signature.signerLines, '\n' ∉ line.toList
  claim : claim.signature.format ≠ none →
    ∀ text ∈ [claim.subject, claim.kind, claim.actor.getD ""] ++ claim.names, '\n' ∉ text.toList

end SignedClaim

/-- An absent principal is an empty one, and the ids of a chain are joined. -/
structure SignsAlike (s t : ClaimSignature) : Prop where
  format : s.format = t.format
  signer : s.signer = t.signer
  onBehalf : s.onBehalf.getD "" = t.onBehalf.getD ""
  key : s.key = t.key
  chain : ",".intercalate s.chain = ",".intercalate t.chain
  nonce : s.nonce = t.nonce
  time : s.signedAtUnixMs = t.signedAtUnixMs

theorem signsAlike_of_lines {s t : ClaimSignature} (hf : s.format = t.format)
    (h : s.signerLines = t.signerLines) : SignsAlike s t := by
  simp only [signerLines, cons.injEq, and_true] at h
  obtain ⟨signer, onBehalf, key, chain, nonce, time⟩ := h
  exact ⟨hf, signer, onBehalf, key, chain, nonce, Nat.repr_injective time⟩

/-- What the signed bytes tell of a claim. -/
structure SignedAlike (a b : SignedClaim) : Prop where
  signature : SignsAlike a.signature b.signature
  subject : a.subject = b.subject
  kind : a.kind = b.kind
  actor : a.actor.getD "" = b.actor.getD ""
  whole : a.signature.format = none →
    a.actor = b.actor ∧ a.body.canonicalJsonValue = b.body.canonicalJsonValue
  fields : a.signature.format ≠ none → a.names = b.names ∧ ∀ name ∈ a.names,
    (a.fields.get name).canonicalJsonValue = (b.fields.get name).canonicalJsonValue

variable {crates} {a b : SignedClaim}

theorem notMem_lines (h : a.Unbroken) (hf : a.signature.format = some fieldsFormat) :
    ∀ line ∈ a.signature.claimLines (a.judged crates) ++ a.signature.signerLines,
      '\n' ∉ line.toList := by
  obtain ⟨hc, hn⟩ := forall_mem_append.mp (h.claim (hf ▸ nofun))
  refine forall_mem_append.mpr ⟨forall_mem_append.mpr ⟨hc, forall_mem_map.mpr fun name hm => ?_⟩,
    h.signer⟩
  simp only [fieldLine, String.toList_append, mem_append, not_or]
  refine ⟨hn name hm, by decide, ?_⟩
  exact String.toList_ofList ▸ newline_notMem_of_balanced (balanced_toText _ _)

theorem fieldLines_inj {l m : List String} (h : l.map (fieldLine (a.judged crates)) =
    m.map (fieldLine (b.judged crates))) : l = m ∧ ∀ name ∈ l,
      (a.fields.get name).canonicalJsonValue = (b.fields.get name).canonicalJsonValue := by
  induction l generalizing m with
  | nil => exact ⟨(map_eq_nil_iff.mp h.symm).symm, nofun⟩
  | cons name l ih =>
    cases m with
    | nil => cases h
    | cons name' m =>
      rw [map_cons, map_cons, cons.injEq] at h
      have hl := congrArg String.toList h.1
      simp only [fieldLine, Crates.library, String.toList_append, String.toList_ofList] at hl
      obtain ⟨hn, ht⟩ := name_value_inj (balanced_toText _ _) (balanced_toText _ _) hl
      obtain rfl := String.toList_inj.mp hn
      obtain ⟨rfl, hv⟩ := ih h.2
      refine ⟨rfl, forall_mem_cons.mpr ⟨?_, hv⟩⟩
      exact (@reads_toText crates.numbers _ _ [] [] nofun nofun (congrArg (· ++ []) ht)).1

theorem eq_of_lines {d : String} {l m : List String} (hd : '\n' ∉ d.toList)
    (hl : ∀ line ∈ l, '\n' ∉ line.toList)
    (h : d.toList ++ lines '\n' (l.map String.toList) =
      d.toList ++ lines '\n' (m.map String.toList))
    (hn : l.length = m.length ∨ ∀ line ∈ m, '\n' ∉ line.toList) : l = m := by
  have hl' : ∀ line ∈ l.map String.toList, '\n' ∉ line := forall_mem_map.mpr hl
  have hlen : (l.map String.toList).length = (m.map String.toList).length := by
    rcases hn with hn | hn
    · simpa using hn
    · exact length_eq_of_lines hd hd hl' (forall_mem_map.mpr hn) h
  exact map_injective_iff.mpr (fun _ _ => String.toList_injective) (lines_inj hd hl' hlen h).2

/-- Two signed claims with the same bytes are alike, if no line break stands in the texts of one
and, where fields are signed, the other signs as many or has no line break either. -/
theorem signedBytes_commits {bytes : String} (ha : a.signedBytes crates = some bytes)
    (hb : b.signedBytes crates = some bytes) (hu : a.Unbroken)
    (hn : a.signature.format = none ∨ a.names.length = b.names.length ∨ b.Unbroken) :
    SignedAlike a b := by
  have hd : claimSignatureDomain.toList ≠ fieldsDomain.toList := by decide
  rcases signedBytes_lines ha with ⟨hf, ha⟩ | ⟨hf, ha⟩ <;>
    rcases signedBytes_lines hb with ⟨hf', hb⟩ | ⟨hf', hb⟩
  · have hl : ∀ line ∈ (a.judged crates).content :: a.signature.signerLines, '\n' ∉ line.toList :=
      forall_mem_cons.mpr ⟨crates.oneLine _, hu.signer⟩
    have he := eq_of_lines (by decide) hl (ha.symm.trans hb) (.inl rfl)
    obtain ⟨hc, hs⟩ := cons.inj he
    have hc := crates.injective hc
    simp only [Prod.mk.injEq] at hc
    obtain ⟨-, subject, kind, actor, body⟩ := hc
    exact ⟨signsAlike_of_lines (hf.trans hf'.symm) hs, subject, kind, congrArg (·.getD "") actor,
      fun _ => ⟨actor, body⟩, (absurd hf ·)⟩
  · exact absurd (append_stop_inj (by decide) (by decide) (ha.symm.trans hb)).1 hd
  · exact absurd (append_stop_inj (by decide) (by decide) (ha.symm.trans hb)).1 hd.symm
  · have hn := hn.resolve_left (hf ▸ nofun)
    have he := eq_of_lines (by decide) (notMem_lines hu hf) (ha.symm.trans hb) <| hn.imp
      (by simp [claimLines, signerLines, SignedClaim.names]) (notMem_lines · hf')
    obtain ⟨hc, hs⟩ := append_inj' he rfl
    obtain ⟨hhead, hnames⟩ := append_inj hc rfl
    simp only [SignedClaim.judged, cons.injEq, and_true] at hhead
    obtain ⟨subject, kind, actor⟩ := hhead
    exact ⟨signsAlike_of_lines (hf.trans hf'.symm) hs, subject, kind, actor, (hf ▸ nofun),
      fun _ => fieldLines_inj hnames⟩

end

def sampleHash (content : String × String × String × Option String × Value) : List Char :=
  toText default (.array [.string content.1, .string content.2.1, .string content.2.2.1,
    (content.2.2.2.1.map Value.string).getD .null, content.2.2.2.2])

def sampleCrates : Crates where
  numbers := default
  fromFields _ := none
  verifyKeySignature key _ signature := key = signature
  canonicalHash content := .ofList (sampleHash content)
  injective := by
    rintro ⟨d, s, k, a, v⟩ ⟨d', s', k', a', v'⟩ h
    have h := (@reads_toText default _ _ [] [] nofun nofun
      (congrArg (· ++ []) (String.ofList_injective h))).1
    cases a <;> cases a' <;> simp_all
  oneLine content := by
    rw [String.toList_ofList]
    exact newline_notMem_of_balanced (balanced_toText _ _)

/-- A request signed on a phone, with fields that are missing. -/
def phoneClaim (subject kind : String) (actor onBehalf : Option String)
    (signedFields chain : List String) : SignedClaim where
  id := "claim"
  subject
  kind
  actor
  body := .null
  fields := .null
  signature :=
    ⟨"person/ada", onBehalf, "phone", chain, "nonce", 0, "", some fieldsFormat, signedFields⟩

/-- One claim has the lines of another whose subject holds a line break, and an absent text those
of an empty one. -/
theorem shifted_lines_same_bytes :
    let claim := phoneClaim "note/plans" "note" (some "person/ada") none ["author", "text"] []
    let shifted := phoneClaim "note/plans\nnote" "person/ada" (some "author=null") none ["text"] []
    (claim.signedBytes sampleCrates).isSome ∧
    claim.signedBytes sampleCrates = shifted.signedBytes sampleCrates ∧
    (phoneClaim "note/plans" "note" none none ["text"] ["a,b"]).signedBytes sampleCrates =
      (phoneClaim "note/plans" "note" (some "") (some "") ["text"] ["a", "b"]).signedBytes
        sampleCrates := by
  have ht : ∀ name, sampleCrates.library.fieldText Value.null name = "null" := by
    intro name
    simp [Crates.library, sampleCrates, Value.get, canonicalJsonText, canonicalJsonValue, toText]
  have hs : sortedNames ["author", "text"] = ["author", "text"] := by
    have hle : "author" ≤ "text" := by decide
    rw [sortedNames, mergeSort_of_pairwise (by simp [hle])]
    decide +kernel
  refine ⟨rfl, congrArg some ?_, rfl⟩
  simp only [ClaimSignature.fieldsSigningBytes, phoneClaim, hs, map_cons, SignedClaim.judged, ht]
  decide +kernel

theorem phoneClaim_commits : SignedAlike (phoneClaim "note/plans" "note" none none ["text"] [])
    (phoneClaim "note/plans" "note" (some "") (some "") ["text"] [""]) :=
  have hu : (phoneClaim "note/plans" "note" none none ["text"] []).Unbroken :=
    ⟨by decide +kernel, fun _ => by decide +kernel⟩
  @signedBytes_commits sampleCrates _ _ _ rfl rfl hu (.inr (.inl rfl))

end Smalltalk.Principals
