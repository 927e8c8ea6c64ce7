import Helmr.Network.Canonical

/-!
# Network — the documents of a policy

A policy that was read is normal, and both of its documents read back to it (`Normal.decodeStored_json`,
`Normal.parsePublic_public`). Public documents that differ in writing only are one policy
(`parsePublic_same`).
-/

namespace Helmr.Network

open Wire Fallible Netip Json
open Wire.Order

/-! ## Reading a document -/

section Reading

variable {raw rest : Bytes}

theorem strict_eq {α : Type} {v : Value} {decode : Value → Except ReadError α} (hunique : v.unique = true)
    (hrest : skipSpace rest = []) : strict v rest decode = decode v := by
  unfold strict
  rw [reject_false (by simp [hunique])]
  cases hdecode : decode v with
  | error e => rfl
  | ok a =>
    show (reject (skipSpace rest ≠ []) ReadError.trailing >>= fun _ => pure a) = _
    rw [reject_false (by simp [hrest])]
    rfl

/-- A text that reads as an object is not empty, and not `null`. -/
theorem object_text {ms : List (Bytes × Value)} (h : firstValue raw = some (.object ms, rest)) :
    raw.length ≠ 0 ∧ trimSpace raw ≠ ascii "null" := by
  obtain ⟨t, ht⟩ := head_of_object h
  refine ⟨fun hnil => ?_, trimSpace_ne_null ht⟩
  rw [List.length_eq_zero_iff.mp hnil] at ht
  cases ht

theorem strictText_eq {α : Type} {v : Value} {decode : Value → Except ReadError α}
    (h : firstValue raw = some (v, rest)) (hrest : skipSpace rest = []) (hunique : v.unique = true) :
    strictText raw decode = decode v := by
  unfold strictText
  rw [h]
  exact strict_eq hunique hrest

/-- A document that allows domains. -/
theorem parsePublic_eq {vs : List Value} (h : firstValue raw = some (.object [(ascii "allowDomains", .array vs)], rest))
    (hrest : skipSpace rest = []) (hunique : (Value.array vs).unique = true) :
    parsePublic raw = (vs.mapM readEntry >>= fun domains =>
      (normalize ⟨.allowlist, domains⟩ true).mapError ReadError.policy) := by
  obtain ⟨hlength, hnull⟩ := object_text h
  have hobject : (Value.object [(ascii "allowDomains", .array vs)]).unique = true := by
    refine unique_object.mpr ⟨show [ascii "allowDomains"].Nodup by decide, ?_⟩
    rintro m (_ | ⟨_, ⟨⟩⟩)
    exact hunique
  unfold parsePublic
  rw [if_neg hlength, if_neg hnull, strictText_eq h hrest hobject]
  show (strict (.array vs) [] asItems >>= _) = _
  rw [strict_eq hunique rfl]
  rfl

end Reading

/-! ## Public documents -/

section Public

/-- An entry of a public document. -/
inductive PublicEntry where
  | name (s : Bytes)
  | ranged (domain : Bytes) (ipRanges : List Bytes)

/-- How an entry may be written: the members of an object have no order, and their names are read in any letter
case. -/
inductive PublicEntry.Writes : PublicEntry → Value → Prop
  | name (s : Bytes) : Writes (.name s) (.string s)
  | ranged {k k' : Bytes} (d : Bytes) (rs : List Bytes) (hk : isField k "domain" = true)
      (hk' : isField k' "ipRanges" = true) :
      Writes (.ranged d rs) (.object [(k, .string d), (k', .array (rs.map .string))])
  | swapped {k k' : Bytes} (d : Bytes) (rs : List Bytes) (hk : isField k "domain" = true)
      (hk' : isField k' "ipRanges" = true) :
      Writes (.ranged d rs) (.object [(k', .array (rs.map .string)), (k, .string d)])

/-- A text, with any white space and escapes, of a document that allows domains. -/
def PublicDocument (raw : Bytes) (entries : List PublicEntry) : Prop :=
  ∃ vs rest, firstValue raw = some (.object [(ascii "allowDomains", .array vs)], rest) ∧ skipSpace rest = [] ∧
    List.Forall₂ PublicEntry.Writes entries vs

inductive SameEntry : PublicEntry → PublicEntry → Prop
  | name {s s' : Bytes} (h : SameName s s') : SameEntry (.name s) (.name s')
  | ranged {d d' : Bytes} {rs rs' : List Bytes} (h : SameName d d') (hp : rs.Perm rs') :
      SameEntry (.ranged d rs) (.ranged d' rs')

/-- The documents differ in the order of domains and of ranges, in letter case and in trailing dots. -/
def SameDocument (es es' : List PublicEntry) : Prop := ∃ mid, List.Forall₂ SameEntry es mid ∧ mid.Perm es'

def PublicEntry.read : PublicEntry → Except ReadError Domain
  | .name s => .ok ⟨s, []⟩
  | .ranged d rs => if rs = [] then .error .structured else .ok ⟨d, rs⟩

/-- The entries are the policy's. -/
def Delivers (es : List PublicEntry) (n : Policy) : Prop :=
  ∃ ds, es.mapM PublicEntry.read = .ok ds ∧ normalize ⟨.allowlist, ds⟩ true = .ok n

variable {e e' : PublicEntry} {es es' : List PublicEntry} {raw raw' : Bytes} {n : Policy}

theorem not_domain {k : Bytes} (hk : isField k "ipRanges" = true) : ¬isField k "domain" = true := by
  rw [isField_other hk (by decide)]
  exact Bool.false_ne_true

theorem PublicEntry.Writes.unique {v : Value} (h : e.Writes v) : v.unique = true := by
  cases h with
  | name s => rfl
  | ranged d rs hk hk' =>
    refine unique_object.mpr ⟨List.nodup_cons.mpr ⟨?_, List.nodup_singleton _⟩, ?_⟩
    · rintro (_ | ⟨_, ⟨⟩⟩)
      exact not_domain hk' hk
    · rintro m (_ | ⟨_, _ | ⟨_, ⟨⟩⟩⟩)
      exacts [rfl, unique_strings rs]
  | swapped d rs hk hk' =>
    refine unique_object.mpr ⟨List.nodup_cons.mpr ⟨?_, List.nodup_singleton _⟩, ?_⟩
    · rintro (_ | ⟨_, ⟨⟩⟩)
      exact not_domain hk' hk
    · rintro m (_ | ⟨_, _ | ⟨_, ⟨⟩⟩⟩)
      exacts [unique_strings rs, rfl]

theorem entryMember_domain {k : Bytes} (hk : isField k "domain" = true) (entry : Entry) (d : Bytes) :
    entryMember entry k (.string d) = .ok { entry with domain := d } := by
  rw [entryMember, if_pos hk]
  rfl

theorem entryMember_ranges {k : Bytes} (hk : isField k "ipRanges" = true) (d : Bytes) (rs : List Bytes) :
    entryMember ⟨d, none⟩ k (.array (rs.map .string)) = .ok ⟨d, some rs⟩ := by
  rw [entryMember, if_neg (not_domain hk), if_pos hk]
  show (do return { Entry.mk d none with
    ipRanges := ← (Value.array (rs.map .string)).asNilable ReadError.decoder (Value.asString .decoder) [] none }) = _
  rw [asNilable_strings]
  rfl

theorem PublicEntry.Writes.readEntry_eq {v : Value} (h : e.Writes v) : readEntry v = e.read := by
  have hunique := h.unique
  have hfinish (d : Bytes) (rs : List Bytes) {u : Value} (hu : u.unique = true)
      (hstruct : u.asStruct ReadError.decoder entryMember ⟨[], none⟩ = .ok ⟨d, some rs⟩) :
      (do
        let e ← strict u [] (Value.asStruct .decoder entryMember ⟨[], none⟩)
        reject (e.ipRanges.getD [] = []) .structured
        return ⟨e.domain, e.ipRanges.getD []⟩ : Except ReadError Domain) = (PublicEntry.ranged d rs).read := by
    rw [strict_eq hu rfl, hstruct]
    show (reject (rs = []) ReadError.structured >>= fun _ => (pure (Domain.mk d rs) : Except ReadError Domain)) = _
    by_cases hnil : rs = []
    · subst hnil
      rfl
    · rw [reject_false hnil]
      exact (if_neg hnil).symm
  cases h with
  | name s => rfl
  | ranged d rs hk hk' =>
    refine hfinish d rs hunique ?_
    show (entryMember ⟨[], none⟩ _ (.string d) >>= fun entry => entryMember entry _ _ >>= pure) = _
    rw [entryMember_domain hk, ok_bind, entryMember_ranges hk']
    rfl
  | swapped d rs hk hk' =>
    refine hfinish d rs hunique ?_
    show (entryMember ⟨[], none⟩ _ (.array (rs.map .string)) >>= fun entry => entryMember entry _ _ >>= pure) = _
    rw [entryMember_ranges hk', ok_bind, entryMember_domain hk]
    rfl

/-- The policy of a document's entries. -/
theorem PublicDocument.parsePublic_ok_iff (h : PublicDocument raw es) :
    parsePublic raw = .ok n ↔ Delivers es n := by
  obtain ⟨vs, rest, hfirst, hrest, hwrites⟩ := h
  have hunique : (Value.array vs).unique = true := by
    clear hfirst
    refine unique_array.mpr ?_
    induction hwrites with
    | nil => exact fun v hv => absurd hv List.not_mem_nil
    | cons he _ ih => exact List.forall_mem_cons.mpr ⟨he.unique, ih⟩
  have hread : vs.mapM readEntry = es.mapM PublicEntry.read := by
    clear hfirst hunique
    induction hwrites with
    | nil => rfl
    | cons he _ ih => rw [List.mapM_cons, List.mapM_cons, he.readEntry_eq, ih]
  rw [parsePublic_eq hfirst hrest hunique, hread, bind_eq_ok]
  refine exists_congr fun ds => and_congr_right fun _ => ?_
  cases normalize ⟨.allowlist, ds⟩ true with
  | error e => exact ⟨nofun, nofun⟩
  | ok p => exact ⟨fun h => by cases h; rfl, fun h => by cases h; rfl⟩

theorem SameEntry.symm (h : SameEntry e e') : SameEntry e' e := by
  cases h with
  | name h => exact .name h.symm
  | ranged h hp => exact .ranged h.symm hp.symm

theorem SameEntry.read_ok (h : SameEntry e e') {d : Domain} (hd : e.read = .ok d) :
    ∃ d', e'.read = .ok d' ∧ SameDomain d d' := by
  cases h with
  | name h =>
    cases hd
    exact ⟨_, rfl, h, .refl _⟩
  | @ranged name name' rs rs' h hp =>
    have hd : (if rs = [] then .error ReadError.structured else .ok ⟨name, rs⟩) = Except.ok d := hd
    split at hd
    · cases hd
    · next hne =>
      cases hd
      refine ⟨⟨name', rs'⟩, if_neg ?_, h, hp⟩
      rintro rfl
      exact hne (List.perm_nil.mp hp)

/-- One half: each entry is written in another way. -/
theorem read_same (h : List.Forall₂ SameEntry es es') (hn : Delivers es n) : Delivers es' n := by
  obtain ⟨ds, hds, hn⟩ := hn
  have hreads : ∃ ds', es'.mapM PublicEntry.read = .ok ds' ∧ List.Forall₂ SameDomain ds ds' := by
    clear hn
    induction h generalizing ds with
    | nil =>
      cases hds
      exact ⟨[], rfl, .nil⟩
    | cons he _ ih =>
      obtain ⟨d, rest, hd, hrest, rfl⟩ := mapM_cons_eq_ok.mp hds
      obtain ⟨d', hd', hsame⟩ := he.read_ok hd
      obtain ⟨rest', hrest', hsames⟩ := ih rest hrest
      exact ⟨d' :: rest', mapM_cons_eq_ok.mpr ⟨d', rest', hd', hrest', rfl⟩, .cons hsame hsames⟩
  obtain ⟨ds', hds', hsame⟩ := hreads
  exact ⟨ds', hds', normalize_same hsame hn⟩

/-- The other: the entries are in another order. -/
theorem read_perm (h : es.Perm es') (hn : Delivers es n) : Delivers es' n := by
  obtain ⟨ds, hds, hn⟩ := hn
  obtain ⟨ds', hds', hperm⟩ := mapM_perm h hds
  exact ⟨ds', hds', normalize_perm hperm.symm hn⟩

/-- **Documents that differ in writing only are one policy.** -/
theorem parsePublic_same (h : PublicDocument raw es) (h' : PublicDocument raw' es') (hsame : SameDocument es es') :
    parsePublic raw = .ok n ↔ parsePublic raw' = .ok n := by
  rw [h.parsePublic_ok_iff, h'.parsePublic_ok_iff]
  obtain ⟨mid, hsame, hperm⟩ := hsame
  have hback : List.Forall₂ SameEntry mid es := hsame.flip.imp fun _ _ h => h.symm
  exact ⟨fun hn => read_perm hperm (read_same hsame hn), fun hn => read_same hback (read_perm hperm.symm hn)⟩

end Public

/-! ## What is written reads back -/

section RoundTrip

variable {d : Domain} {p : Policy}

def Ascii (s : Bytes) : Prop := s.all (fun c => c.toNat < 0x80) = true

theorem ascii_of_normalized {name : Bytes} (h : normalizePattern name = .ok name) : Ascii name := by
  rw [normalizePattern, bind_eq_ok] at h
  obtain ⟨_, hreject, _⟩ := h
  have hsmall := reject_eq_ok.mp hreject
  refine List.all_eq_true.mpr fun c hc => decide_eq_true ?_
  by_contra hbig
  exact hsmall ⟨c, hc, by omega⟩

theorem ascii_of_parsePrefix {value : Bytes} {q : Prefix4} (h : parsePrefix value = .ok q) : Ascii value := by
  rw [← text_of_parsePrefix h]
  have hnat (n : Nat) : Ascii (renderNat n) := by
    refine List.all_eq_true.mpr fun c hc => decide_eq_true ?_
    have hdigit := isDigit_of_mem_renderNat hc
    simp only [isDigit, Bool.and_eq_true, decide_eq_true_eq] at hdigit
    omega
  have happend {a b : Bytes} (ha : Ascii a) (hb : Ascii b) : Ascii (a ++ b) := by
    unfold Ascii
    rw [List.all_append, ha, hb]
    rfl
  unfold Prefix4.text renderAddr4
  simp only [List.map_cons, List.map_nil, List.intercalate, List.intersperse, List.flatten_cons, List.flatten_nil]
  have hone (c : UInt8) (hc : c.toNat < 0x80) : Ascii [c] := by simp [Ascii, hc]
  refine happend ?_ (happend (hone 0x2F (by decide)) (hnat _))
  refine happend (hnat _) (happend (hone _ (by decide)) (happend (hnat _) (happend (hone _ (by decide))
    (happend (hnat _) (happend (hone _ (by decide)) (happend (hnat _) rfl))))))

/-- The texts of a normal domain. -/
theorem ascii_domain (h : normalizeDomain [] d = .ok d) : Ascii d.domain ∧ ∀ r ∈ d.ipRanges, Ascii r := by
  obtain ⟨name, hname, _, _, hvalid, _, heq⟩ := normalizeDomain_eq_ok_iff.mp h
  have hdomain : d.domain = name := congrArg Domain.domain heq
  rw [hdomain] at hname ⊢
  refine ⟨ascii_of_normalized hname, fun r hr => ?_⟩
  obtain ⟨q, hq⟩ := hvalid r hr
  exact ascii_of_parsePrefix hq

/-- The document of a domain. -/
def Domain.value (d : Domain) : Value :=
  .object ((ascii "domain", .string d.domain)
    :: if d.ipRanges.length = 0 then [] else [(ascii "ipRanges", .array (d.ipRanges.map .string))])

theorem render_domainValue (d : Domain) : d.value.render = d.json := by
  unfold Domain.value Domain.json
  rw [Value.render, renderMembers_eq]
  by_cases hempty : d.ipRanges.length = 0 <;>
    simp only [hempty, if_true, if_false, List.map_cons, List.map_nil, List.append_nil, List.cons_append,
      List.nil_append, Value.render, renderItems_strings]

theorem fits_strings {ss : List Bytes} (h : ∀ s ∈ ss, Ascii s) : Fits 2 (.array (ss.map .string)) := by
  intro v hv
  obtain ⟨s, hs, rfl⟩ := List.mem_map.mp hv
  exact utf8_of_ascii (h s hs)

theorem fits_domainValue (hname : Ascii d.domain) (hranges : ∀ r ∈ d.ipRanges, Ascii r) : Fits 3 d.value := by
  intro m hm
  rcases List.mem_cons.mp hm with rfl | hm
  · exact ⟨utf8_fieldName "domain" (by decide), utf8_of_ascii hname⟩
  · cases eq_of_mem_optional hm
    exact ⟨utf8_fieldName "ipRanges" (by decide), fits_strings hranges⟩

theorem unique_domainValue (d : Domain) : d.value.unique = true := by
  unfold Domain.value
  split
  · refine unique_object.mpr ⟨show [ascii "domain"].Nodup by decide, ?_⟩
    rintro m (_ | ⟨_, ⟨⟩⟩)
    rfl
  · refine unique_object.mpr ⟨show [ascii "domain", ascii "ipRanges"].Nodup by decide, ?_⟩
    rintro m (_ | ⟨_, _ | ⟨_, ⟨⟩⟩⟩)
    · rfl
    · exact unique_strings _

theorem asStruct_domainValue (d : Domain) :
    d.value.asStruct ReadError.decoder domainMember ⟨[], []⟩ = .ok d := by
  obtain ⟨name, ranges⟩ := d
  unfold Domain.value
  split
  · next hempty =>
    cases List.length_eq_zero_iff.mp hempty
    rfl
  · have hranges : domainMember ⟨name, []⟩ (ascii "ipRanges") (.array (ranges.map .string)) = .ok ⟨name, ranges⟩ := by
      show (do return { Domain.mk name [] with
        ipRanges := ← (Value.array (ranges.map .string)).asSlice ReadError.decoder (Value.asString .decoder) [] [] }) = _
      rw [asSlice_array _ fun _ _ => rfl]
      rfl
    show (domainMember ⟨name, []⟩ (ascii "ipRanges") (.array (ranges.map .string)) >>= pure) = _
    rw [hranges]
    rfl

/-- The document of a list of domains. -/
def domainsValue (ds : List Domain) : Value := .array (ds.map Domain.value)

/-- The stored document. -/
def Policy.value (p : Policy) : Value :=
  .object ((ascii "kind", .string p.kind.text)
    :: if p.domains.length = 0 then [] else [(ascii "domains", domainsValue p.domains)])

theorem render_domainsValue (ds : List Domain) : (domainsValue ds).render = renderArray (ds.map Domain.json) := by
  rw [domainsValue, Value.render, renderItems_eq, List.map_map]
  congr 1
  exact List.map_congr_left fun d _ => render_domainValue d

theorem render_policyValue (p : Policy) : p.value.render = p.json := by
  unfold Policy.value Policy.json
  rw [Value.render, renderMembers_eq]
  by_cases hempty : p.domains.length = 0 <;>
    simp only [hempty, if_true, if_false, List.map_cons, List.map_nil, List.append_nil, List.cons_append,
      List.nil_append, render_domainsValue, Value.render]

theorem unique_policyValue (p : Policy) : p.value.unique = true := by
  unfold Policy.value
  split
  · refine unique_object.mpr ⟨show [ascii "kind"].Nodup by decide, ?_⟩
    rintro m (_ | ⟨_, ⟨⟩⟩)
    rfl
  · refine unique_object.mpr ⟨show [ascii "kind", ascii "domains"].Nodup by decide, ?_⟩
    rintro m (_ | ⟨_, _ | ⟨_, ⟨⟩⟩⟩)
    · rfl
    · refine unique_array.mpr fun v hv => ?_
      obtain ⟨d, _, rfl⟩ := List.mem_map.mp hv
      exact unique_domainValue d

theorem asStruct_policyValue (p : Policy) :
    p.value.asStruct ReadError.decoder storedMember ⟨[], []⟩ = .ok ⟨p.kind.text, p.domains⟩ := by
  obtain ⟨kind, ds⟩ := p
  unfold Policy.value
  split
  · next hempty =>
    cases List.length_eq_zero_iff.mp hempty
    rfl
  · have hdomains : storedMember ⟨kind.text, []⟩ (ascii "domains") (domainsValue ds) = .ok ⟨kind.text, ds⟩ := by
      show ((domainsValue ds).asSlice ReadError.decoder (Value.asStruct .decoder domainMember) ⟨[], []⟩ [] >>=
        fun domains => pure (StoredPolicy.mk kind.text domains)) = _
      have hslice : (domainsValue ds).asSlice ReadError.decoder (Value.asStruct .decoder domainMember) ⟨[], []⟩ []
          = .ok ds := asSlice_array _ fun d _ => asStruct_domainValue d
      rw [hslice]
      rfl
    show (storedMember ⟨kind.text, []⟩ (ascii "domains") (domainsValue ds) >>= pure) = _
    rw [hdomains]
    rfl

theorem Normal.ofText_text (h : Normal p) : Kind.ofText p.kind.text = p.kind := by
  cases h <;> rfl

theorem Normal.firstValue_json (h : Normal p) : firstValue p.json = some (p.value, []) := by
  have hdomains : ∀ d ∈ p.domains, Fits 3 d.value := by
    cases h with
    | ordinary => exact fun d hd => absurd hd List.not_mem_nil
    | blocked => exact fun d hd => absurd hd List.not_mem_nil
    | allowlist _ _ each _ _ =>
      intro d hd
      obtain ⟨hname, hranges⟩ := ascii_domain (each d hd)
      exact fits_domainValue hname hranges
  have hkind : Utf8 p.kind.text := by
    cases h with
    | ordinary => exact utf8_of_ascii (s := ascii "ordinary") (by decide)
    | blocked => exact utf8_of_ascii (s := ascii "block") (by decide)
    | allowlist => exact utf8_of_ascii (s := ascii "allow") (by decide)
  rw [← render_policyValue]
  have hdepth : 4 < maxDepth := by decide
  refine firstValue_object ?_ hdepth
  intro m hm
  rcases List.mem_cons.mp hm with rfl | hm
  · exact ⟨utf8_fieldName "kind" (by decide), hkind⟩
  · cases eq_of_mem_optional hm
    refine ⟨utf8_fieldName "domains" (by decide), fun v hv => ?_⟩
    obtain ⟨d, hd, rfl⟩ := List.mem_map.mp hv
    exact hdomains d hd

/-- **The stored document reads back.** -/
theorem Normal.decodeStored_json (h : Normal p) (number : Bytes → Bytes) : decodeStored number p.json = .ok p := by
  have hfirst := h.firstValue_json
  obtain ⟨hlength, hnull⟩ := object_text hfirst
  unfold decodeStored
  rw [if_neg (by rintro (h | h); exacts [hlength h, hnull h]), strictText_eq hfirst rfl (unique_policyValue p),
    asStruct_policyValue]
  show ((normalize ⟨.ofText p.kind.text, p.domains⟩ false).mapError ReadError.policy >>= fun n =>
    reject (genericText number p.json ≠ genericText number n.json) ReadError.noncanonical >>= fun _ => pure n) = _
  rw [h.ofText_text]
  show ((normalize p false).mapError ReadError.policy >>= fun n =>
    reject (genericText number p.json ≠ genericText number n.json) ReadError.noncanonical >>= fun _ => pure n) = _
  rw [h.normalize_eq]
  show (reject (genericText number p.json ≠ genericText number p.json) ReadError.noncanonical >>= fun _ => pure p) = _
  rw [reject_false (by simp)]
  rfl

/-- The entry that a domain is published as. -/
def Domain.entry (d : Domain) : PublicEntry :=
  if d.ipRanges.length = 0 then .name d.domain else .ranged d.domain d.ipRanges

theorem read_entry (d : Domain) : d.entry.read = .ok d := by
  obtain ⟨name, ranges⟩ := d
  unfold Domain.entry
  split
  · next hempty =>
    cases List.length_eq_zero_iff.mp hempty
    rfl
  · next hne => exact if_neg fun hnil => hne (List.length_eq_zero_iff.mpr hnil)

/-- **The public document reads back.** -/
theorem Normal.parsePublic_public (h : Normal p) : parsePublic p.public = .ok p := by
  have hnormal : normalize p true = .ok p := h.normalize_eq
  cases h with
  | ordinary => decide +kernel
  | blocked => decide +kernel
  | @allowlist ds nonempty count each nodup sorted =>
    -- the entry of a domain: its name alone where it has no ranges
    have hentry (d : Domain) : ∃ v, d.entry.Writes v ∧
        v.render = (if d.ipRanges.length = 0 then renderString d.domain else d.json) ∧
        (Ascii d.domain → (∀ r ∈ d.ipRanges, Ascii r) → Fits 3 v) := by
      unfold Domain.entry
      by_cases hempty : d.ipRanges.length = 0
      · rw [if_pos hempty, if_pos hempty]
        exact ⟨_, .name _, rfl, fun hname _ => utf8_of_ascii hname⟩
      · rw [if_neg hempty, if_neg hempty, ← render_domainValue]
        refine ⟨_, .ranged _ _ (by decide : isField (ascii "domain") "domain" = true)
          (by decide : isField (ascii "ipRanges") "ipRanges" = true), ?_, ?_⟩
        · rw [Domain.value, if_neg hempty]
        · intro hname hranges
          have hfits := fits_domainValue hname hranges
          rwa [Domain.value, if_neg hempty] at hfits
    choose entryValue hwrites hrender hfits using hentry
    have hpublic : Policy.public ⟨.allowlist, ds⟩
        = (Value.object [(ascii "allowDomains", .array (ds.map entryValue))]).render := by
      show renderObject _ = _
      rw [Value.render, renderMembers, renderMembers, Value.render, renderItems_eq, List.map_map]
      congr 4
      exact List.map_congr_left fun d _ => (hrender d).symm
    have hdocument : PublicDocument (Policy.public ⟨.allowlist, ds⟩) (ds.map Domain.entry) := by
      refine ⟨ds.map entryValue, [], ?_, rfl, ?_⟩
      · rw [hpublic]
        have hdepth : 4 < maxDepth := by decide
        refine firstValue_object ?_ hdepth
        rintro m (_ | ⟨_, ⟨⟩⟩)
        refine ⟨utf8_fieldName "allowDomains" (by decide), fun v hv => ?_⟩
        obtain ⟨d, hd, rfl⟩ := List.mem_map.mp hv
        obtain ⟨hname, hranges⟩ := ascii_domain (each d hd)
        exact hfits d hname hranges
      · rw [List.forall₂_map_left_iff, List.forall₂_map_right_iff, List.forall₂_same]
        exact fun d _ => hwrites d
    refine hdocument.parsePublic_ok_iff.mpr ⟨ds, ?_, hnormal⟩
    rw [List.mapM_map]
    have hmap : ds.mapM (PublicEntry.read ∘ Domain.entry) = .ok (ds.map id) :=
      mapM_of_forall fun d _ => read_entry d
    rwa [List.map_id] at hmap

end RoundTrip

/-! ## One form -/

section OneForm

variable {raw : Bytes} {p : Policy} {number : Bytes → Bytes}

theorem normal_of_mapError {q : Policy} {empty : Bool}
    (h : (normalize q empty).mapError ReadError.policy = .ok p) : Normal p := by
  cases hq : normalize q empty with
  | error e =>
    rw [hq] at h
    cases h
  | ok n =>
    rw [hq] at h
    cases h
    exact normal_of_normalize hq

theorem normal_of_parsePublic (h : parsePublic raw = .ok p) : Normal p := by
  unfold parsePublic at h
  split at h
  · cases h
    exact .ordinary
  · split at h
    · cases h
    · simp only [bind_eq_ok] at h
      obtain ⟨fields, _, _, _, h⟩ := h
      split at h
      · simp only [bind_eq_ok, pure_eq_ok] at h
        obtain ⟨_, _, block, _, rfl⟩ := h
        cases block
        · exact .ordinary
        · exact .blocked
      · split at h
        · cases h
        · simp only [bind_eq_ok] at h
          obtain ⟨_, _, _, _, domains, _, h⟩ := h
          exact normal_of_mapError h

theorem normal_of_decodeStored (h : decodeStored number raw = .ok p) : Normal p := by
  unfold decodeStored at h
  split at h
  · cases h
  · simp only [bind_eq_ok, pure_eq_ok] at h
    obtain ⟨wire, _, n, hn, _, _, rfl⟩ := h
    exact normal_of_mapError hn

/-- **A network policy has one form.** A policy that was read from either document is written as a stored
and as a public document that read back to it, and normalizing leaves it as it is; so it does an accepted
pattern; and public documents that differ in the order of domains or of ranges, in letter case or in a
trailing dot are one policy, with one digest. -/
theorem policy_has_one_form (number : Bytes → Bytes) :
    (∀ p, (∃ raw, parsePublic raw = .ok p) ∨ (∃ raw, decodeStored number raw = .ok p) →
        decodeStored number p.json = .ok p ∧ parsePublic p.public = .ok p ∧ ∀ empty, normalize p empty = .ok p) ∧
      (∀ value name, normalizePattern value = .ok name → normalizePattern name = .ok name) ∧
      ∀ raw raw' es es', PublicDocument raw es → PublicDocument raw' es' → SameDocument es es' →
        (∀ p, parsePublic raw = .ok p ↔ parsePublic raw' = .ok p) ∧
        ∀ sha256 p p', parsePublic raw = .ok p → parsePublic raw' = .ok p' → p.digest sha256 = p'.digest sha256 := by
  refine ⟨fun p hp => ?_, fun value name => normalizePattern_again, fun raw raw' es es' h h' hsame => ⟨?_, ?_⟩⟩
  · have hnormal : Normal p := by
      rcases hp with ⟨raw, hraw⟩ | ⟨raw, hraw⟩
      · exact normal_of_parsePublic hraw
      · exact normal_of_decodeStored hraw
    exact ⟨hnormal.decodeStored_json number, hnormal.parsePublic_public, fun _ => hnormal.normalize_eq⟩
  · exact fun p => parsePublic_same h h' hsame
  · intro sha256 p p' hp hp'
    have heq := ((parsePublic_same h h' hsame).mp hp).symm.trans hp'
    rw [← Except.ok.inj heq]

end OneForm

namespace Demo

def document : Bytes :=
  ascii "\x7b\"allowDomains\":[\"B.example.com.\", \x7b\"domain\":\"a.example.com\",\"ipRanges\":[\"10.0.0.0/8\"]\x7d]\x7d"

def documentPolicy : Policy :=
  ⟨.allowlist, [⟨ascii "a.example.com", [ascii "10.0.0.0/8"]⟩, ⟨ascii "b.example.com", []⟩]⟩

/-- The same policy: the entries swapped, and members, names and dots written in another way. -/
def rewritten : Bytes :=
  ascii "\x7b\"allowDomains\":[\x7b\"IPRanges\":[\"10.0.0.0/8\"],\"Domain\":\"A.example.com\"\x7d,\"b.EXAMPLE.com\"]\x7d"

end Demo

theorem policy_has_one_form_demo : parsePublic Demo.document = .ok Demo.documentPolicy
    ∧ parsePublic Demo.documentPolicy.public = .ok Demo.documentPolicy
    ∧ normalizePattern (ascii "b.example.com") = .ok (ascii "b.example.com")
    ∧ parsePublic Demo.rewritten = .ok Demo.documentPolicy := by
  obtain ⟨hforms, hpatterns, hsame⟩ := policy_has_one_form id
  have hread : parsePublic Demo.document = .ok Demo.documentPolicy := by decide +kernel
  have hname : normalizePattern (ascii "B.example.com.") = .ok (ascii "b.example.com") := by decide +kernel
  have hdocument : PublicDocument Demo.document
      [.name (ascii "B.example.com."), .ranged (ascii "a.example.com") [ascii "10.0.0.0/8"]] :=
    ⟨_, _, rfl, rfl, .cons (.name _) (.cons (.ranged _ _ (by decide) (by decide)) .nil)⟩
  have hrewritten : PublicDocument Demo.rewritten
      [.ranged (ascii "A.example.com") [ascii "10.0.0.0/8"], .name (ascii "b.EXAMPLE.com")] :=
    ⟨_, _, rfl, rfl, .cons (.swapped _ _ (by decide) (by decide)) (.cons (.name _) .nil)⟩
  have hentries : SameDocument [.name (ascii "B.example.com."), .ranged (ascii "a.example.com") [ascii "10.0.0.0/8"]]
      [.ranged (ascii "A.example.com") [ascii "10.0.0.0/8"], .name (ascii "b.EXAMPLE.com")] :=
    ⟨_, .cons (.name (.inr (.inl (by decide)))) (.cons (.ranged (.inl (by decide)) (.refl _)) .nil), .swap _ _ _⟩
  exact ⟨hread, (hforms _ (.inl ⟨_, hread⟩)).2.1, hpatterns _ _ hname,
    ((hsame _ _ _ _ hdocument hrewritten hentries).1 _).mp hread⟩

end Helmr.Network
