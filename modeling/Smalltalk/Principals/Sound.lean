import Mathlib.Logic.Basic
import Mathlib.Tactic.ByContra
import Smalltalk.Principals.Judge

/-!
# What a verified claim rests on

A verified claim that is not a grant is signed by a root node key, by an agent's or plugin's
key that a root node key granted, or by a device of a person with a granted root key.
-/

namespace Smalltalk.Principals

open Family

variable {library : Library} {claim : Judged library} {signature : ClaimSignature} {facts : Facts}

/-- Verified delegations are verdicts of `judge` on grants, over the same trust
roots. -/
def Facts.FromJudge (library : Library) (facts : Facts) : Prop :=
  ∀ id delegation, facts.delegation id = some delegation → delegation.verdict = .verified →
    ∃ (claim : Judged library) (signature : Option ClaimSignature) (facts' : Facts),
      claim.kind = keyGranted ∧ claim.subject = delegation.subject ∧
      library.fromFields claim.fields = some delegation.grant ∧
      facts'.isRoot = facts.isRoot ∧ judge claim signature facts' = .verified

structure Grants (library : Library) (facts : Facts) (id principal key : String) (role : Role)
    (issuer issuerKey : String) :
    Prop where
  held : ∃ delegation, facts.delegation id = some delegation ∧ delegation.subject = principal ∧
    delegation.grant = ⟨key, role, issuer, issuerKey⟩
  signed : ∃ (claim : Judged library) (signature : ClaimSignature), claim.kind = keyGranted ∧
    claim.subject = principal ∧
    library.fromFields claim.fields = some ⟨key, role, issuer, issuerKey⟩ ∧
    signature.signer = issuer ∧ signature.key = issuerKey ∧ signature.verifies claim = true

def RootKey (facts : Facts) (node key : String) : Prop :=
  of node = some .node ∧ facts.isRoot node key = true

def NodeSigned (facts : Facts) (signature : ClaimSignature) : Prop :=
  signature.chain = [] ∧ RootKey facts signature.signer signature.key

def GranteeSigned (library : Library) (facts : Facts) (signature : ClaimSignature) : Prop :=
  ∃ id role issuer issuerKey, signature.chain = [id] ∧
    (of signature.signer = some .agent ∧ role = .agent ∨
      of signature.signer = some .plugin ∧ role = .plugin) ∧
    Grants library facts id signature.signer signature.key role issuer issuerKey ∧
    RootKey facts issuer issuerKey ∧ facts.revokedBefore signature.signer signature.key = false

def DeviceSigned (library : Library) (facts : Facts) (signature : ClaimSignature) : Prop :=
  ∃ id rootId rootKey issuer issuerKey, signature.chain = [id, rootId] ∧
    of signature.signer = some .person ∧
    Grants library facts id signature.signer signature.key .device signature.signer rootKey ∧
    Grants library facts rootId signature.signer rootKey .root issuer issuerKey ∧
    RootKey facts issuer issuerKey ∧ facts.revokedBefore signature.signer signature.key = false ∧
    facts.revokedBefore signature.signer rootKey = false

/-! ## One verdict -/

/-- What `judge` checked of a verified claim. -/
structure Checked (claim : Judged library) (signature : ClaimSignature) (facts : Facts)
    (family : Family) : Prop where
  verifies : signature.verifies claim = true
  fresh : facts.nonceUsedBefore signature.key signature.nonce = false
  signer : of signature.signer = some family
  grant : claim.kind = keyGranted → judgeGrant claim signature family = none
  node : family = .node → signature.chain = [] ∧ facts.isRoot signature.signer signature.key = true
  chain : family ≠ .node →
    judgeChain claim family facts true signature.signer signature.key signature.chain = .verified

theorem checked_of_judge {signature : Option ClaimSignature}
    (h : judge claim signature facts = .verified) :
    ∃ s family, signature = some s ∧ Checked claim s facts family := by
  unfold judge at h
  split at h
  · cases h
  · rename_i s
    split at h
    · cases h
    · rename_i hv
      split at h
      · cases h
      · rename_i hf
        split at h
        · cases h
        · split at h
          · cases h
          · rename_i family hm
            split at h
            · cases h
            · rename_i hg
              refine ⟨s, family, rfl, by simpa using hv, by simpa using hf, hm, ?_, ?_, ?_⟩
              · intro hk
                rwa [if_pos hk] at hg
              · intro hn
                rw [if_pos hn] at h
                split at h
                · cases h
                · rename_i hc
                  split at h
                  · rename_i hr
                    exact ⟨not_not.mp hc, hr⟩
                  · cases h
              · intro hn
                rw [if_neg hn] at h
                split at h
                · cases h
                · exact h

variable {family : Family} {key p : String}

theorem judgeGrant_none (h : judgeGrant claim signature family = none) :
    ∃ g subjectFamily, library.fromFields claim.fields = some g ∧ g.issuer = signature.signer ∧
      g.issuerKey = signature.key ∧ of claim.subject = some subjectFamily ∧
      subjectFamily.accepts g.role family (claim.subject = g.issuer) = true := by
  unfold judgeGrant at h
  split at h
  · cases h
  · rename_i g hg
    split at h
    · rename_i hi
      split at h
      · cases h
      · rename_i subjectFamily hf
        split at h
        · rename_i ha
          exact ⟨g, subjectFamily, hg, hi.1, hi.2, hf, ha⟩
        · cases h
    · cases h

/-- A verified delegation was granted by a family that may, and a granting node by a root key. -/
theorem Facts.FromJudge.grants (hjudge : facts.FromJudge library) {id : String} {d : Delegation}
    (hg : facts.delegation id = some d) (hv : d.verdict = .verified) :
    Grants library facts id d.subject d.grant.key d.grant.role d.grant.issuer d.grant.issuerKey ∧
      ∃ family i, of d.subject = some family ∧ of d.grant.issuer = some i ∧
        family.accepts d.grant.role i (d.subject = d.grant.issuer) = true ∧
        (i = .node → RootKey facts d.grant.issuer d.grant.issuerKey) := by
  obtain ⟨grant, signature, facts', hkind, hs, hf, hr, hj⟩ := hjudge id d hg hv
  obtain ⟨s, i, rfl, hc⟩ := checked_of_judge hj
  obtain ⟨g, family, hfields, hi, hk, hm, ha⟩ := judgeGrant_none (hc.grant hkind)
  cases hf.symm.trans hfields
  refine ⟨⟨⟨d, hg, rfl, rfl⟩, grant, s, hkind, hs, hf, hi.symm, hk.symm, hc.verifies⟩,
    family, i, hs ▸ hm, hi ▸ hc.signer, ?_, ?_⟩
  · rw [← hs]
    exact ha
  · intro hn
    refine ⟨hi ▸ hn ▸ hc.signer, ?_⟩
    rw [hi, hk, ← hr]
    exact (hc.node hn).2

/-! ## The walk up the chain -/

theorem judgeChain_verified {f : Bool} {id : String} {r : List String}
    (h : judgeChain claim family facts f p key (id :: r) = .verified) :
    ∃ d, facts.delegation id = some d ∧ d.subject = p ∧ d.grant.key = key ∧
      (f = true → claim.kind ≠ keyGranted → family.signsWith d.grant.role = true) ∧
      (f = false → d.grant.role = .root) ∧ facts.revokedBefore p key = false ∧
      d.verdict = .verified ∧ (of d.grant.issuer = some .node → r = []) ∧
        (of d.grant.issuer ≠ some .node →
          judgeChain claim family facts false d.grant.issuer d.grant.issuerKey r = .verified) := by
  unfold judgeChain at h
  split at h
  · cases h
  · rename_i d ht
    split at h
    · cases h
    · rename_i hg
      split at h
      · cases h
      · rename_i hs
        split at h
        · cases h
        · rename_i hi
          split at h
          · cases h
          · rename_i hr
            split at h
            · cases h
            · cases h
            · cases h
            · rename_i hv
              simp only [not_or, not_not] at hg
              refine ⟨d, ht, hg.1, hg.2, ?_, ?_, by simpa using hr, hv, ?_, ?_⟩
              · intro hf hk
                by_contra hn
                exact hs ⟨hf, hk, hn⟩
              · intro hf
                by_contra hn
                exact hi ⟨by simp [hf], hn⟩
              · intro hd
                rw [if_pos hd] at h
                split at h
                · assumption
                · cases h
              · intro hd
                rwa [if_neg hd] at h

theorem judgeChain_nil {f : Bool} : judgeChain claim family facts f p key [] ≠ .verified := by
  simp [judgeChain]

/-- Above the signing key of a person only their root key remains. -/
theorem root_of_walk (hf : facts.FromJudge library) {c : List String} (hp : of p = some .person)
    (h : judgeChain claim family facts false p key c = .verified) :
    ∃ id i issuerKey, c = [id] ∧ Grants library facts id p key .root i issuerKey ∧
      RootKey facts i issuerKey ∧ facts.revokedBefore p key = false := by
  cases c with
  | nil => exact absurd h judgeChain_nil
  | cons id r =>
    obtain ⟨d, ht, rfl, rfl, -, hl, hr, hv, hd, -⟩ := judgeChain_verified h
    obtain ⟨hg, subjectFamily, issuerFamily, hs, hi, ha, hkey⟩ := hf.grants ht hv
    cases hp.symm.trans hs
    rw [hl rfl] at hg ha
    have hn : issuerFamily = .node := by simpa [accepts] using ha
    subst hn
    refine ⟨id, d.grant.issuer, d.grant.issuerKey, ?_, hg, hkey rfl, hr⟩
    rw [hd hi]

theorem signed_of_walk (hjudge : facts.FromJudge library) (hkind : claim.kind ≠ keyGranted)
    (hf : of signature.signer = some family)
    (h : judgeChain claim family facts true signature.signer signature.key signature.chain =
      .verified) :
    GranteeSigned library facts signature ∨ DeviceSigned library facts signature := by
  cases hc : signature.chain with
  | nil =>
    rw [hc] at h
    exact absurd h judgeChain_nil
  | cons id r =>
    rw [hc] at h
    obtain ⟨d, hget, hb, hk, hs, -, hv, hverdict, hd, hw⟩ := judgeChain_verified h
    obtain ⟨hg, subjectFamily, issuerFamily, hfamily, hi, ha, ht⟩ := hjudge.grants hget hverdict
    rw [hb] at hg hfamily ha
    rw [hk] at hg
    cases hf.symm.trans hfamily
    have hs := hs rfl hkind
    -- The signing role fixes the family, and the family who may have granted it.
    cases family with
    | node => simp [signsWith] at hs
    | person =>
      right
      have hr : d.grant.role = .device := by
        cases hr : d.grant.role <;> simp_all [signsWith]
      rw [hr] at hg ha
      simp only [accepts, Bool.and_eq_true, decide_eq_true_eq] at ha
      obtain ⟨rfl, hm⟩ := ha
      have hw := hw (by simp [hi])
      rw [← hm] at hw hg
      obtain ⟨rootId, issuer, issuerKey, hnil, hgrants, hkey, hbefore⟩ := root_of_walk hjudge hf hw
      exact ⟨id, rootId, d.grant.issuerKey, issuer, issuerKey,
        by rw [hc, hnil], hf, hg, hgrants, hkey, hv, hbefore⟩
    | agent =>
      left
      have hr : d.grant.role = .agent := by
        cases hr : d.grant.role <;> simp_all [signsWith]
      rw [hr] at hg ha
      have hn : issuerFamily = .node := by simpa [accepts] using ha
      subst hn
      exact ⟨id, .agent, _, _, by rw [hc, hd hi], .inl ⟨hf, rfl⟩, hg, ht rfl, hv⟩
    | plugin =>
      left
      have hr : d.grant.role = .plugin := by
        cases hr : d.grant.role <;> simp_all [signsWith]
      rw [hr] at hg ha
      have hn : issuerFamily = .node := by simpa [accepts] using ha
      subst hn
      exact ⟨id, .plugin, _, _, by rw [hc, hd hi], .inr ⟨hf, rfl⟩, hg, ht rfl, hv⟩

/-- A verified claim that is not a grant is signed, with a nonce no earlier claim of the key used,
by a node, a grantee of a node or a device of a person. A key that no root key of the person
granted never signs one. -/
theorem verified_claims_sound (hfacts : facts.FromJudge library) (hkind : claim.kind ≠ keyGranted) :
    (∀ signature, judge claim signature facts = .verified →
      ∃ s, signature = some s ∧ s.verifies claim = true ∧
      facts.nonceUsedBefore s.key s.nonce = false ∧
      (NodeSigned facts s ∨ GranteeSigned library facts s ∨ DeviceSigned library facts s)) ∧
    ∀ s : ClaimSignature, of s.signer = some .person →
      (∀ id delegation, s.chain.head? = some id → facts.delegation id = some delegation →
        ∀ rootId root, facts.delegation rootId = some root → root.subject = s.signer →
          root.grant.key = delegation.grant.issuerKey → root.grant.role ≠ .root) →
      judge claim (some s) facts ≠ .verified := by
  have hg : ∀ signature, judge claim signature facts = .verified →
      ∃ s, signature = some s ∧ s.verifies claim = true ∧
      facts.nonceUsedBefore s.key s.nonce = false ∧
      (NodeSigned facts s ∨ GranteeSigned library facts s ∨ DeviceSigned library facts s) := by
    intro signature hj
    obtain ⟨s, family, rfl, hc⟩ := checked_of_judge hj
    refine ⟨s, rfl, hc.verifies, hc.fresh, ?_⟩
    by_cases hn : family = .node
    · subst hn
      exact .inl ⟨(hc.node rfl).1, hc.signer, (hc.node rfl).2⟩
    · exact .inr (signed_of_walk hfacts hkind hc.signer (hc.chain hn))
  refine ⟨hg, fun s hp hn' hj => ?_⟩
  obtain ⟨s', hs, -, -, hh⟩ := hg _ hj
  cases hs
  rcases hh with hh | hh | hh
  · cases hp.symm.trans hh.2.1
  · obtain ⟨_, _, _, _, -, hf, -⟩ := hh
    rcases hf with hf | hf
    · cases hp.symm.trans hf.1
    · cases hp.symm.trans hf.1
  · obtain ⟨id, rootId, rootKey, issuer, issuerKey, hchain, -, hgrants, hgrants', -⟩ := hh
    obtain ⟨delegation, hget, -, hgrant⟩ := hgrants.held
    obtain ⟨root, ht, hsubject, hr⟩ := hgrants'.held
    refine hn' id delegation (by rw [hchain]; rfl) hget rootId root ht hsubject ?_ ?_
    · rw [hgrant, hr]
    · rw [hr]

def sampleLibrary : Library where
  Value := Option KeyGrant
  fromFields := id
  fieldText _ _ := "null"
  verifyKeySignature key _ signature := key = signature

def sampleFacts : Facts where
  delegation id :=
    if id = "device-grant" then
    some ⟨"person/ada", ⟨"phone", .device, "person/ada", "root"⟩, .verified⟩
    else if id = "root-grant" then
      some ⟨"person/ada", ⟨"root", .root, "host/studio", "member"⟩, .verified⟩
    else none
  isRoot subject key := subject = "host/studio" && key = "member"
  revokedBefore _ key := key = "member"
  nonceUsedBefore _ _ := false

def sampleClaim (kind : String) (fields : Option KeyGrant) : Judged sampleLibrary :=
  ⟨"claim", "person/ada", kind, none, "digest", fields⟩

def sampleSignature (signer key : String) (chain : List String) : ClaimSignature :=
  ⟨signer, none, key, chain, "nonce", 0, key, none, []⟩

/-- A node's claims are verified although its key was revoked. -/
theorem revoked_node_key_verified : sampleFacts.revokedBefore "host/studio" "member" = true ∧
    judge (sampleClaim "message.sent" none) (some (sampleSignature "host/studio" "member" []))
      sampleFacts = .verified := by
  decide +kernel

theorem sampleFacts_sound : ∃ s : ClaimSignature,
    judge (sampleClaim "message.sent" none) (some s) sampleFacts = .verified ∧
    DeviceSigned sampleLibrary sampleFacts s := by
  have hf : sampleFacts.FromJudge sampleLibrary := by
    intro id delegation hg _
    by_cases hd : id = "device-grant"
    · subst hd
      cases hg
      exact ⟨sampleClaim keyGranted (some ⟨"phone", .device, "person/ada", "root"⟩),
        some (sampleSignature "person/ada" "root" ["root-grant"]), sampleFacts, rfl, rfl, rfl, rfl,
        by decide +kernel⟩
    · by_cases hr : id = "root-grant"
      · subst hr
        cases hg
        exact ⟨sampleClaim keyGranted (some ⟨"root", .root, "host/studio", "member"⟩),
          some (sampleSignature "host/studio" "member" []), sampleFacts, rfl, rfl, rfl, rfl, by
            decide +kernel⟩
      · simp [sampleFacts, hd, hr] at hg
  have hj : judge (sampleClaim "message.sent" none)
      (some (sampleSignature "person/ada" "phone" ["device-grant", "root-grant"])) sampleFacts =
          .verified := by
    decide +kernel
  obtain ⟨s, hs, -, -, hh⟩ := (verified_claims_sound hf (by decide +kernel)).1 _ hj
  cases hs
  refine ⟨_, hj, ?_⟩
  rcases hh with hh | hh | hh
  · exact absurd hh.1 (by decide +kernel)
  · obtain ⟨_, _, _, _, hc, -⟩ := hh
    cases hc
  · exact hh

end Smalltalk.Principals
