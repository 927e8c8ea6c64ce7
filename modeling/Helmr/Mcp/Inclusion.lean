import Helmr.Mcp.Canonical

/-!
# Mcp — inclusion of policies

A normalized policy is unrestricted or canonical (`Normalized.cases`). Both kinds are proper, so that
`subsetOf` is inclusion of authority, and both read back from their stored text, so that equal texts are
equal policies (`bytes_injective`). `inclusion_is_exact` puts this together.
-/

namespace Helmr.Mcp

open Wire Fallible

variable {p q : Policy}

/-- The results of the three functions that deliver policies. -/
def Normalized (p : Policy) : Prop :=
  (∃ raw keys, normalize raw keys = .ok p) ∨ (∃ raw keys, resolve raw keys = .ok p)
    ∨ ∃ kind rules, decode kind rules = .ok p

theorem normalize_eq_ok {raw : Option (Option (List Rule))} {keys : Option (List Bytes)}
    (h : normalize raw keys = .ok p) :
    p = ⟨unrestricted, []⟩ ∨ ∃ rules keys, normalizeRules rules keys = .ok p := by
  match raw with
  | none =>
    cases h
    exact .inl rfl
  | some none => cases h
  | some (some rules) => exact .inr ⟨rules, keys, h⟩

/-- A normalized policy is unrestricted or the normal form of some rules. -/
theorem Normalized.cases (h : Normalized p) :
    p = ⟨unrestricted, []⟩ ∨ ∃ rules keys, normalizeRules rules keys = .ok p := by
  rcases h with ⟨raw, keys, h⟩ | ⟨raw, keys, h⟩ | ⟨kind, rules, h⟩
  · exact normalize_eq_ok h
  · cases raw with
    | none => exact .inr ⟨_, keys, h⟩
    | some document => exact normalize_eq_ok h
  · unfold decode at h
    split at h
    · cases h
      exact .inl rfl
    · simp only [bind_eq_ok] at h
      obtain ⟨_, _, rules', _, p', hrules, _, _, h⟩ := h
      cases pure_eq_ok.mp h
      exact .inr ⟨rules', none, hrules⟩

theorem Canonical.proper (h : Canonical p) : Proper p where
  kind := .inl h.kind
  known r hr := (h.normal r hr).valid.known
  targetless r hr hlist := ((h.normal r hr).valid.targetless hlist).2
  keys r hr hempty := absurd ((h.normal r hr).valid.keys [] hempty).1 (by decide)

theorem Normalized.proper (h : Normalized p) : Proper p := by
  rcases h.cases with rfl | ⟨rules, keys, hrules⟩
  · refine ⟨.inr rfl, ?_, ?_, ?_⟩ <;> exact fun r hr => absurd hr List.not_mem_nil
  · exact (canonical_of_normalizeRules hrules).proper

theorem Normalized.decode_bytes (h : Normalized p) : Document.decode p.bytes = .ok p := by
  rcases h.cases with rfl | ⟨rules, keys, hrules⟩
  · decide +kernel
  · exact (canonical_of_normalizeRules hrules).decode_bytes

/-- Stored texts tell normalized policies apart: each is read back from its own. -/
theorem bytes_injective (hp : Normalized p) (hq : Normalized q) (h : p.bytes = q.bytes) : p = q := by
  have hread := hq.decode_bytes
  rw [← h, hp.decode_bytes] at hread
  exact Except.ok.inj hread

/-- Policies of one authority are one policy. -/
theorem Normalized.eq_of_allows (hp : Normalized p) (hq : Normalized q)
    (hpq : p.subsetOf q = true) (hqp : q.subsetOf p = true) : p = q := by
  have hsame (op a c : Bytes) : p.allows op a c = true ↔ q.allows op a c = true :=
    ⟨(subsetOf_iff hp.proper hq.proper).mp hpq op a c, (subsetOf_iff hq.proper hp.proper).mp hqp op a c⟩
  -- an unrestricted policy is included in no normal form
  have hnot {rules : List Rule} {keys : Option (List Bytes)} {r : Policy}
      (hr : normalizeRules rules keys = .ok r) : ¬(Policy.mk unrestricted []).subsetOf r = true := by
    simp [Policy.subsetOf, (canonical_of_normalizeRules hr).kind, allow_ne_unrestricted,
      allow_ne_unrestricted.symm]
  rcases hp.cases with rfl | ⟨rules, keys, hrules⟩
  · rcases hq.cases with rfl | ⟨rules', keys', hrules'⟩
    · rfl
    · exact absurd hpq (hnot hrules')
  · rcases hq.cases with rfl | ⟨rules', keys', hrules'⟩
    · exact absurd hqp (hnot hrules)
    · obtain ⟨_, hvalid, rfl⟩ := normalizeRules_eq_ok_iff.mp hrules
      obtain ⟨_, hvalid', rfl⟩ := normalizeRules_eq_ok_iff.mp hrules'
      exact resultOf_congr (groupsOf_sound hvalid) (groupsOf_sound hvalid') hsame

/-- **Inclusion is exact.** For normalized policies `subsetOf` is inclusion of authority; it is reflexive
and transitive, mutual inclusion is equality of the stored form, and along a chain of scopes each a subset
of the one before nothing is allowed that the root forbids. -/
theorem inclusion_is_exact :
    (∀ p m, Normalized p → Normalized m → (p.subsetOf m = true ↔ ∀ op agent computer,
        p.allows op agent computer = true → m.allows op agent computer = true))
      ∧ (∀ p, Normalized p → p.subsetOf p = true)
      ∧ (∀ p q r, Normalized p → Normalized q → Normalized r → p.subsetOf q = true →
          q.subsetOf r = true → p.subsetOf r = true)
      ∧ (∀ p q, Normalized p → Normalized q →
          (p.subsetOf q = true ∧ q.subsetOf p = true ↔ p.equal q = true))
      ∧ ∀ root scopes, Normalized root → (∀ p ∈ scopes, Normalized p) →
          (root :: scopes).IsChain (fun maximum p => p.subsetOf maximum = true) →
          ∀ p ∈ scopes, ∀ op agent computer, p.allows op agent computer = true →
            root.allows op agent computer = true := by
  have hrefl (p : Policy) (hp : Normalized p) : p.subsetOf p = true :=
    (subsetOf_iff hp.proper hp.proper).mpr fun _ _ _ h => h
  refine ⟨fun p m hp hm => subsetOf_iff hp.proper hm.proper, hrefl, ?_, ?_, ?_⟩
  · intro p q r hp hq hr hpq hqr
    refine (subsetOf_iff hp.proper hr.proper).mpr fun op a c h => ?_
    exact (subsetOf_iff hq.proper hr.proper).mp hqr op a c
      ((subsetOf_iff hp.proper hq.proper).mp hpq op a c h)
  · intro p q hp hq
    rw [Policy.equal, decide_eq_true_eq]
    constructor
    · rintro ⟨hpq, hqp⟩
      rw [hp.eq_of_allows hq hpq hqp]
    · intro h
      obtain rfl := bytes_injective hp hq h
      exact ⟨hrefl p hp, hrefl p hp⟩
  -- along a chain: one scope after the other
  · intro root scopes hroot hscopes hchain
    induction scopes generalizing root with
    | nil => exact fun p hp => absurd hp List.not_mem_nil
    | cons first rest ih =>
      obtain ⟨hsubset, hrest⟩ := List.isChain_cons_cons.mp hchain
      have hfirst := hscopes first List.mem_cons_self
      have hstep := (subsetOf_iff hfirst.proper hroot.proper).mp hsubset
      intro p hp op a c h
      rcases List.mem_cons.mp hp with rfl | hp
      · exact hstep op a c h
      · exact hstep op a c (ih first hfirst (fun p hp => hscopes p (List.mem_cons_of_mem _ hp)) hrest
          p hp op a c h)

namespace Demo

def narrow : List Rule := [⟨ascii "spawn", some [ascii "b"], ascii "new"⟩]

def narrowPolicy : Policy := ⟨allow, narrow⟩

end Demo

theorem inclusion_is_exact_demo :
    normalize (some (some Demo.narrow)) none = .ok Demo.narrowPolicy
      ∧ normalize (some (some Demo.wide)) none = .ok Demo.widePolicy
      ∧ Demo.narrowPolicy.allows (ascii "spawn") (ascii "b") (ascii "new") = true
      ∧ Demo.widePolicy.allows (ascii "spawn") (ascii "b") (ascii "new") = true := by
  have hnarrow : normalize (some (some Demo.narrow)) none = .ok Demo.narrowPolicy := by decide +kernel
  have hwide : normalize (some (some Demo.wide)) none = .ok Demo.widePolicy := by decide +kernel
  have hallows : Demo.narrowPolicy.allows (ascii "spawn") (ascii "b") (ascii "new") = true := by
    decide +kernel
  have hsubset : Demo.narrowPolicy.subsetOf Demo.widePolicy = true := by decide +kernel
  have hexact := inclusion_is_exact.1 Demo.narrowPolicy Demo.widePolicy (.inl ⟨_, _, hnarrow⟩)
    (.inl ⟨_, _, hwide⟩)
  exact ⟨hnarrow, hwide, hallows, hexact.mp hsubset _ _ _ hallows⟩

end Helmr.Mcp
