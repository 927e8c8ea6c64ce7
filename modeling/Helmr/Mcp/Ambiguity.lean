import Helmr.Mcp.Document

/-!
# Mcp — documents with one reading

`strict` refuses an object that names a member twice, and a rule is checked for the members it may have. Both
go by the exact names, while `encoding/json` selects a field by its name in any case. `Unambiguous` is what
the checks are for; of the documents that are accepted, those are unambiguous in which a second spelling does
not occur where it matters (`Spelled`).

`checked_of_unmarshalJSON` is what the checks establish of a rule, and `accepted_of_normalize` and
`accepted_of_decode` of the two documents; `Accepted.unambiguous` and `Accepted.spelled` are the two directions.
-/

namespace Helmr.Mcp

open Wire Fallible Json

/-- The members that select a field. -/
def selecting (field : String) (ms : List (Bytes × Value)) : List (Bytes × Value) :=
  ms.filter fun m => isField m.1 field

/-- The rules of a document under a field. -/
def rulesIn (field : String) : Value → List Value
  | .object ms => (selecting field ms).flatMap fun m =>
    match m.2 with
    | .array items => items
    | _ => []
  | _ => []

/-- The operation of a rule: the last one it names. -/
def operationOf (ms : List (Bytes × Value)) : Bytes :=
  ms.foldl (fun op m =>
    if isField m.1 "operation" then
      match m.2 with
      | .string s => s
      | _ => op
    else op) []

/-- The rule for Computers has no target at all, any other one has keys, and a Computer only to create in. -/
def Targeted (ms : List (Bytes × Value)) : Prop :=
  if operationOf ms = listComputers then selecting "agents" ms = [] ∧ selecting "computer" ms = []
  else (∃ m ∈ selecting "agents" ms, m.2.isNull = false) ∧
    (selecting "computer" ms ≠ [] → creates (operationOf ms) = true)

structure Unambiguous (field : String) (v : Value) : Prop where
  single : ∀ ms, Inside (.object ms) v → (ms.map fun m => foldName m.1).Nodup
  rules : ∀ item ∈ rulesIn field v, ∃ ms, item = .object ms ∧ Targeted ms

/-- Where another spelling does not matter: no two spellings of a name in one object, keys in their exact name,
and a Computer in its exact name but for rules that create. -/
structure Spelled (field : String) (v : Value) : Prop where
  single : ∀ ms, Inside (.object ms) v →
    ms.Pairwise fun m m' => m.1 ≠ m'.1 → foldName m.1 ≠ foldName m'.1
  agents : ∀ ms, .object ms ∈ rulesIn field v → ∀ m ∈ selecting "agents" ms, m.1 = ascii "agents"
  computer : ∀ ms, .object ms ∈ rulesIn field v → creates (operationOf ms) = false →
    ∀ m ∈ selecting "computer" ms, m.1 = ascii "computer"

variable {ms : List (Bytes × Value)} {field : String} {v : Value}

theorem mem_selecting {m : Bytes × Value} : m ∈ selecting field ms ↔ m ∈ ms ∧ isField m.1 field = true :=
  List.mem_filter

theorem mem_of_lookup {name : Bytes} {w : Value} (h : ms.lookup name = some w) : (name, w) ∈ ms := by
  obtain ⟨before, after, hsplit, -⟩ := List.lookup_eq_some_iff.mp h
  rw [hsplit]
  simp

theorem inside_of_mem_rulesIn {item : Value} (h : item ∈ rulesIn field v) : Inside item v := by
  cases v with
  | object ms =>
    obtain ⟨m, hm, hitem⟩ := List.mem_flatMap.mp h
    apply Inside.member (mem_selecting.mp hm).1
    cases hv : m.2 with
    | array items =>
      rw [hv] at hitem
      exact .item hitem .self
    | _ =>
      rw [hv] at hitem
      cases hitem
  | _ => cases h

/-! ## What is accepted -/

theorem ruleMember_operation {r r' : Rule} {m : Bytes × Value} (h : ruleMember r m.1 m.2 = .ok r') :
    r'.operation = if isField m.1 "operation" then
      match m.2 with
      | .string s => s
      | _ => r.operation
    else r.operation := by
  unfold ruleMember at h
  split at h
  · next hop =>
    rw [if_pos hop]
    obtain ⟨op, hdecode, heq⟩ := bind_eq_ok.mp h
    cases heq
    cases hv : m.2 <;> rw [hv] at hdecode <;> cases hdecode <;> rfl
  · next hop =>
    rw [if_neg hop]
    split at h
    · obtain ⟨agents, -, heq⟩ := bind_eq_ok.mp h
      cases heq
      rfl
    · split at h
      · obtain ⟨computer, -, heq⟩ := bind_eq_ok.mp h
        cases heq
        rfl
      · cases h

theorem operation_of_struct {r r' : Rule} (h : ms.foldlM (fun s m => ruleMember s m.1 m.2) r = .ok r') :
    r'.operation = ms.foldl (fun op m =>
      if isField m.1 "operation" then
        match m.2 with
        | .string s => s
        | _ => op
      else op) r.operation := by
  induction ms generalizing r with
  | nil =>
    cases h
    rfl
  | cons m ms ih =>
    rw [List.foldlM_cons] at h
    obtain ⟨s, hm, hrest⟩ := bind_eq_ok.mp h
    rw [ih hrest, List.foldl_cons, ruleMember_operation hm]

/-- What the checks on the exact names establish. -/
structure Checked (ms : List (Bytes × Value)) : Prop where
  targetless : operationOf ms = listComputers →
    ms.lookup (ascii "agents") = none ∧ ms.lookup (ascii "computer") = none
  agents : operationOf ms ≠ listComputers → ∃ v, ms.lookup (ascii "agents") = some v ∧ v.isNull = false
  computer : operationOf ms ≠ listComputers → creates (operationOf ms) = false →
    ms.lookup (ascii "computer") = none

theorem strict_eq_ok {α : Type} {rest : Bytes} {decode : Value → Except ReadError α} {a : α}
    (h : strict v rest decode = .ok a) : decode v = .ok a ∧ v.unique = true := by
  unfold strict at h
  obtain ⟨b, hdecode, h⟩ := bind_eq_ok.mp h
  obtain ⟨_, -, h⟩ := bind_eq_ok.mp h
  obtain ⟨_, hunique, h⟩ := bind_eq_ok.mp h
  cases h
  exact ⟨hdecode, by simpa using hunique⟩

/-- The members are read twice: by their exact names for the checks, and as the struct for the values. -/
theorem checked_of_unmarshalJSON {r : Rule} (h : Rule.unmarshalJSON v = .ok r) :
    ∃ ms, v = .object ms ∧ Checked ms := by
  unfold Rule.unmarshalJSON at h
  obtain ⟨fields, hfields, hrest⟩ := bind_eq_ok.mp h
  obtain ⟨value, hvalue, hrest'⟩ := bind_eq_ok.mp hrest
  obtain ⟨_, hknown, hchecks⟩ := bind_eq_ok.mp hrest'
  clear h hrest hrest'
  have hmap := (strict_eq_ok hfields).1
  have hstruct := (strict_eq_ok hvalue).1
  cases v with
  | object members =>
    cases hmap
    have hoperation : value.operation = operationOf fields := operation_of_struct hstruct
    refine ⟨fields, rfl, ?_⟩
    rw [hoperation] at hchecks
    by_cases hlist : operationOf fields = listComputers
    · rw [if_pos hlist] at hchecks
      obtain ⟨_, hnone, -⟩ := bind_eq_ok.mp hchecks
      rw [reject_eq_ok, not_or] at hnone
      simp only [Bool.not_eq_true, Option.isSome_eq_false_iff, Option.isNone_iff_eq_none] at hnone
      exact ⟨fun _ => hnone, fun hne => absurd hlist hne, fun hne => absurd hlist hne⟩
    · rw [if_neg hlist] at hchecks
      obtain ⟨_, hagents, hchecks⟩ := bind_eq_ok.mp hchecks
      rw [reject_eq_ok, not_or] at hagents
      refine ⟨fun heq => absurd heq hlist, fun _ => ?_, fun _ hcreates => ?_⟩
      · cases hlookup : fields.lookup (ascii "agents") with
        | none =>
          rw [hlookup] at hagents
          exact absurd rfl hagents.1
        | some w =>
          rw [hlookup] at hagents
          exact ⟨w, rfl, by simpa using hagents.2⟩
      · rw [if_neg (by rw [hcreates]; exact Bool.false_ne_true)] at hchecks
        obtain ⟨_, hnone, -⟩ := bind_eq_ok.mp hchecks
        simp only [reject_eq_ok, Bool.not_eq_true, Option.isSome_eq_false_iff, Option.isNone_iff_eq_none] at hnone
        exact hnone
  -- `null` leaves the struct as it is, and no operation is known
  | null =>
    cases hstruct
    exact absurd (show known [] = false by decide) (reject_eq_ok.mp hknown)
  | bool b => cases hmap
  | number text => cases hmap
  | string s => cases hmap
  | array items => cases hmap

/-- Every rule of a list that is read is accepted on its own. -/
theorem unmarshalJSON_of_asRules {old rules : Option (List Rule)} {items : List Value}
    (h : asRules old (.array items) = .ok rules) {item : Value} (hitem : item ∈ items) :
    ∃ r, Rule.unmarshalJSON item = .ok r := by
  unfold asRules Value.asNilable at h
  rw [if_neg (by exact Bool.false_ne_true)] at h
  obtain ⟨read, hread, -⟩ : ∃ read, (Value.array items).asSlice ReadError.decoder
      (fun _ v => (Rule.unmarshalJSON v).mapError .nested) .zero (old.getD []) = .ok read ∧ some read = rules := by
    cases hread : (Value.array items).asSlice ReadError.decoder
      (fun _ v => (Rule.unmarshalJSON v).mapError .nested) .zero (old.getD []) with
    | error e =>
      rw [hread] at h
      cases h
    | ok read =>
      rw [hread] at h
      cases h
      exact ⟨read, rfl, rfl⟩
  obtain ⟨acc, acc', hstep⟩ := exists_of_foldlM hread hitem
  obtain ⟨r, hr, -⟩ := bind_eq_ok.mp hstep
  exact ⟨r, mapError_eq_ok.mp hr⟩

/-! ## Acceptance and spelling -/

/-- A document that is accepted: no name twice, and each rule checked. -/
structure Accepted (field : String) (v : Value) : Prop where
  unique : v.unique = true
  rules : ∀ item ∈ rulesIn field v, ∃ ms, item = .object ms ∧ Checked ms

/-- A text that is read strictly into a struct whose members under a field are lists of rules. -/
theorem accepted_of_struct {raw : Bytes} {σ : Type} {member : σ → Bytes → Value → Except ReadError σ} {zero s : σ}
    (hmember : ∀ s name v s', isField name field = true → member s name v = .ok s' →
      ∃ old rules, asRules old v = .ok rules)
    (h : strictText raw (Value.asStruct .decoder member zero) = .ok s) :
    ∃ v rest, firstValue raw = some (v, rest) ∧ Accepted field v := by
  obtain ⟨⟨v, rest⟩, hvalue, hstrict⟩ := bind_eq_ok.mp h
  obtain ⟨hdecode, hunique⟩ := strict_eq_ok hstrict
  refine ⟨v, rest, orFail_eq_ok.mp hvalue, hunique, fun item hitem => ?_⟩
  cases v with
  | object ms =>
    obtain ⟨m, hm, hitem⟩ := List.mem_flatMap.mp hitem
    obtain ⟨hm, hfield⟩ := mem_selecting.mp hm
    obtain ⟨s, s', hstep⟩ := exists_of_foldlM hdecode hm
    obtain ⟨old, rules, hrules⟩ := hmember _ _ _ _ hfield hstep
    cases hv : m.2 with
    | array items =>
      rw [hv] at hitem hrules
      obtain ⟨r, hr⟩ := unmarshalJSON_of_asRules hrules hitem
      exact checked_of_unmarshalJSON hr
    | _ =>
      rw [hv] at hitem
      cases hitem
  | _ => cases hitem

theorem accepted_of_normalize {raw : Bytes} {keys : Option (List Bytes)} {p : Policy} (hraw : raw ≠ [])
    (h : Document.normalize raw keys = .ok p) :
    ∃ v rest, firstValue raw = some (v, rest) ∧ Accepted "allow" v := by
  unfold Document.normalize at h
  rw [if_neg (fun hlength => hraw (List.length_eq_zero_iff.mp hlength))] at h
  obtain ⟨allowed, htext, -⟩ := bind_eq_ok.mp h
  refine accepted_of_struct (fun s name w s' hfield hmember => ?_) htext
  unfold allowMember at hmember
  rw [if_pos hfield] at hmember
  exact ⟨s, s', hmember⟩

theorem accepted_of_decode {raw : Bytes} {p : Policy} (h : Document.decode raw = .ok p) :
    ∃ v rest, firstValue raw = some (v, rest) ∧ Accepted "rules" v := by
  unfold Document.decode at h
  obtain ⟨fields, -, h⟩ := bind_eq_ok.mp h
  obtain ⟨_, -, h⟩ := bind_eq_ok.mp h
  obtain ⟨stored, htext, -⟩ := bind_eq_ok.mp h
  refine accepted_of_struct (fun s name w s' hfield hmember => ?_) htext
  unfold Document.storedMember at hmember
  -- a name that selects the rules does not select the kind
  have hkind : isField name "kind" = false := isField_other hfield (by decide)
  rw [if_neg (by rw [hkind]; exact Bool.false_ne_true), if_pos hfield] at hmember
  obtain ⟨rules, hrules, -⟩ := bind_eq_ok.mp hmember
  exact ⟨s.rules, rules, hrules⟩

/-- In the spelling of the fields, a text has one reading. -/
theorem Accepted.unambiguous (h : Accepted field v) (hspelled : Spelled field v) : Unambiguous field v := by
  refine ⟨fun ms hms => ?_, fun item hitem => ?_⟩
  · have hnames := List.pairwise_map.mp (nodup_of_unique h.unique hms)
    refine List.pairwise_map.mpr ((hnames.and (hspelled.single ms hms)).imp ?_)
    rintro m m' ⟨hne, hfold⟩
    exact hfold hne
  · obtain ⟨ms, rfl, hchecked⟩ := h.rules item hitem
    refine ⟨ms, rfl, ?_⟩
    unfold Targeted
    -- a member in its exact name would have been seen
    have hnone {name : String} (hlookup : ms.lookup (ascii name) = none)
        (hexact : ∀ m ∈ selecting name ms, m.1 = ascii name) : selecting name ms = [] := by
      rw [List.eq_nil_iff_forall_not_mem]
      intro m hm
      have hname := List.lookup_eq_none_iff.mp hlookup m (mem_selecting.mp hm).1
      rw [bne_iff_ne] at hname
      exact hname (hexact m hm).symm
    by_cases hlist : operationOf ms = listComputers
    · rw [if_pos hlist]
      obtain ⟨hagents, hcomputer⟩ := hchecked.targetless hlist
      refine ⟨hnone hagents (hspelled.agents ms hitem), hnone hcomputer (hspelled.computer ms hitem ?_)⟩
      rw [hlist]
      decide
    · rw [if_neg hlist]
      constructor
      · obtain ⟨w, hlookup, hnull⟩ := hchecked.agents hlist
        exact ⟨(ascii "agents", w), mem_selecting.mpr ⟨mem_of_lookup hlookup, beq_self_eq_true _⟩, hnull⟩
      · intro hsome
        by_contra hcreates
        rw [Bool.not_eq_true] at hcreates
        exact hsome (hnone (hchecked.computer hlist hcreates) (hspelled.computer ms hitem hcreates))

/-- Another spelling gives a second reading. -/
theorem Accepted.spelled (h : Accepted field v) (hclear : Unambiguous field v) : Spelled field v := by
  refine ⟨fun ms hms => ?_, fun ms hms m hm => ?_, fun ms hms hcreates m hm => ?_⟩
  · refine (List.pairwise_map.mp (hclear.single ms hms)).imp ?_
    intro m m' hfold _
    exact hfold
  · obtain ⟨ms', heq, hchecked⟩ := h.rules _ hms
    cases heq
    obtain ⟨_, heq, htargeted⟩ := hclear.rules _ hms
    cases heq
    unfold Targeted at htargeted
    split at htargeted
    · rw [htargeted.1] at hm
      cases hm
    · next hlist =>
      -- the member in the exact name is there, and there is no second one
      obtain ⟨w, hlookup, -⟩ := hchecked.agents hlist
      obtain ⟨hmem, hfield⟩ := mem_selecting.mp hm
      have hfold : foldName m.1 = foldName (ascii "agents") := eq_of_beq hfield
      have hsame := List.inj_on_of_nodup_map (hclear.single ms (inside_of_mem_rulesIn hms)) hmem
        (mem_of_lookup hlookup) hfold
      rw [hsame]
  · obtain ⟨_, heq, htargeted⟩ := hclear.rules _ hms
    cases heq
    unfold Targeted at htargeted
    split at htargeted
    · rw [htargeted.2] at hm
      cases hm
    · have htrue := htargeted.2 (List.ne_nil_of_mem hm)
      rw [hcreates] at htrue
      cases htrue

/-! ## Main result -/

/-- **A document that is accepted has one reading exactly when it is spelled so.** -/
theorem documents_unambiguous_iff {raw : Bytes} {p : Policy} :
    (∀ keys, raw ≠ [] → Document.normalize raw keys = .ok p →
      ∃ v rest, firstValue raw = some (v, rest) ∧ (Unambiguous "allow" v ↔ Spelled "allow" v)) ∧
    (Document.decode raw = .ok p →
      ∃ v rest, firstValue raw = some (v, rest) ∧ (Unambiguous "rules" v ↔ Spelled "rules" v)) := by
  constructor
  · intro keys hraw h
    obtain ⟨v, rest, hvalue, haccepted⟩ := accepted_of_normalize hraw h
    exact ⟨v, rest, hvalue, haccepted.spelled, haccepted.unambiguous⟩
  · intro h
    obtain ⟨v, rest, hvalue, haccepted⟩ := accepted_of_decode h
    exact ⟨v, rest, hvalue, haccepted.spelled, haccepted.unambiguous⟩

/-- Computers may be listed, and an Agent started in a new one: as authored, and as stored. -/
def Demo.authored : Bytes :=
  ascii "\x7b\"allow\":[\x7b\"operation\":\"start\",\"agents\":[\"a\"],\"computer\":\"new\"\x7d,\x7b\"operation\":\"list_computers\"\x7d]\x7d"

def Demo.stored : Bytes :=
  ascii "\x7b\"kind\":\"allow\",\"rules\":[\x7b\"operation\":\"list_computers\"\x7d,\x7b\"operation\":\"start\",\"agents\":[\"a\"],\"computer\":\"new\"\x7d]\x7d"

theorem documents_unambiguous_demo :
    (∃ v rest, firstValue Demo.authored = some (v, rest) ∧ (Unambiguous "allow" v ↔ Spelled "allow" v)) ∧
      ∃ v rest, firstValue Demo.stored = some (v, rest) ∧ (Unambiguous "rules" v ↔ Spelled "rules" v) := by
  let p : Policy := ⟨allow, [⟨listComputers, none, []⟩, ⟨ascii "start", some [ascii "a"], ascii "new"⟩]⟩
  have hnormalize : Document.normalize Demo.authored none = .ok p := by decide +kernel
  have hdecode : Document.decode Demo.stored = .ok p := by decide +kernel
  exact ⟨documents_unambiguous_iff.1 none (by decide) hnormalize, documents_unambiguous_iff.2 hdecode⟩

/-- A name in two spellings, and a rule without target that names keys. Both documents are accepted, read and
stored. -/
theorem documents_with_two_readings :
    (∃ v p, firstValue (ascii "\x7b\"allow\":[],\"Allow\":[\x7b\"operation\":\"list_computers\"\x7d]\x7d") = some (v, []) ∧
      Document.normalize (ascii "\x7b\"allow\":[],\"Allow\":[\x7b\"operation\":\"list_computers\"\x7d]\x7d") none = .ok p ∧
      ¬(∀ ms, Inside (.object ms) v → (ms.map fun m => foldName m.1).Nodup)) ∧
    (∃ v p, firstValue (ascii "\x7b\"allow\":[\x7b\"operation\":\"list_computers\",\"Agents\":null\x7d]\x7d") = some (v, []) ∧
      Document.normalize (ascii "\x7b\"allow\":[\x7b\"operation\":\"list_computers\",\"Agents\":null\x7d]\x7d") none = .ok p ∧
      ¬∀ item ∈ rulesIn "allow" v, ∃ ms, item = .object ms ∧ Targeted ms) ∧
    ∃ v p, firstValue (ascii "\x7b\"kind\":\"block\",\"Kind\":\"unrestricted\"\x7d") = some (v, []) ∧
      Document.decode (ascii "\x7b\"kind\":\"block\",\"Kind\":\"unrestricted\"\x7d") = .ok p ∧
      ¬(∀ ms, Inside (.object ms) v → (ms.map fun m => foldName m.1).Nodup) := by
  refine ⟨⟨.object [(ascii "allow", .array []),
      (ascii "Allow", .array [.object [(ascii "operation", .string listComputers)]])],
      ⟨allow, [⟨listComputers, none, []⟩]⟩, by rfl, by decide +kernel, fun h => ?_⟩,
    ⟨.object [(ascii "allow", .array [.object [(ascii "operation", .string listComputers), (ascii "Agents", .null)]])],
      ⟨allow, [⟨listComputers, none, []⟩]⟩, by rfl, by decide +kernel, fun h => ?_⟩,
    ⟨.object [(ascii "kind", .string (ascii "block")), (ascii "Kind", .string unrestricted)],
      ⟨unrestricted, []⟩, by rfl, by decide +kernel, fun h => ?_⟩⟩
  · exact absurd (h _ .self) (by decide)
  · obtain ⟨ms, heq, htargeted⟩ := h _ (by exact List.mem_singleton.mpr rfl)
    cases heq
    exact absurd htargeted.1 (by decide)
  · exact absurd (h _ .self) (by decide)

end Helmr.Mcp
