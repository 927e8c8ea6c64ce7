import Helmr.Secret.OriginSpec
import Helmr.SecretProxy.Markers

/-!
# Secret proxy — what becomes of markers

Every occurrence of `markerPrefix` in headers that `markers` accepts begins a marker that it returns
(`Clean.occurrence`), and none stands in a header that ends at the proxy (`stripped_untouched`). In what is sent an
occurrence touches a substituted value (`sent_touches`). It need not be a part of it: a guest can write text around a
marker that becomes another marker together with the value.
-/

namespace Helmr.SecretProxy

open Wire Wire.Url Fallible Pieces

/-! ## Segments -/

structure IsMarker (m : Bytes) : Prop where
  begins : markerPrefix <+: m
  length : m.length = markerLength
  hex : ∀ c ∈ m.drop 15, isHex c = true

variable {s m value : Bytes}

theorem startsMarker_iff : startsMarker s = true ↔ markerLength ≤ s.length ∧ IsMarker (s.take markerLength) := by
  unfold startsMarker
  rw [Bool.and_eq_true, Bool.and_eq_true, List.isPrefixOf_iff_prefix, decide_eq_true_iff, List.all_eq_true]
  constructor
  · rintro ⟨⟨hbegins, hlen⟩, hhex⟩
    refine ⟨hlen, ?_, List.length_take_of_le hlen, hhex⟩
    exact List.prefix_take_iff.mpr ⟨hbegins, by decide⟩
  · rintro ⟨hlen, hbegins, -, hhex⟩
    exact ⟨⟨hbegins.trans (List.take_prefix _ _), hlen⟩, hhex⟩

def headByte : UInt8 := 0x68

theorem headed_prefix : Headed headByte markerPrefix := by
  intro i
  by_cases hi : i < 15
  · revert i
    decide
  · rw [List.getElem?_eq_none (show markerPrefix.length ≤ i from not_lt.mp hi)]
    simp
    omega

theorem IsMarker.headed (h : IsMarker m) : Headed headByte m := by
  intro i
  obtain ⟨rest, hrest⟩ := h.begins
  have hlength : markerPrefix.length = 15 := rfl
  by_cases hi : i < 15
  · rw [← hrest, List.getElem?_append_left hi]
    exact headed_prefix i
  · -- after the first bytes there are hexadecimal digits
    constructor
    · intro hget
      have hmem : headByte ∈ m.drop 15 := by
        refine List.mem_of_getElem? (i := i - 15) ?_
        rw [List.getElem?_drop, ← hget]
        congr 1
        omega
      exact absurd (h.hex _ hmem) (by decide)
    · intro hzero
      omega

theorem fill_segmentsFrom {fuel : Nat} (h : s.length ≤ fuel) : fill id (segmentsFrom fuel s) = s := by
  induction fuel generalizing s with
  | zero => rw [List.length_eq_zero_iff.mp (Nat.le_zero.mp h)]; rfl
  | succ fuel ih =>
    cases s with
    | nil => rfl
    | cons c s =>
      rw [List.length_cons] at h
      unfold segmentsFrom
      split
      · have hlen : ((c :: s).drop markerLength).length ≤ fuel := by
          rw [List.length_drop, List.length_cons]
          unfold markerLength
          omega
        rw [fill_hole, ih hlen, id_eq, List.take_append_drop]
      · rw [fill_plain, ih (by omega)]

/-- Nothing is lost between the markers. -/
theorem fill_segments (value : Bytes) : fill id (segments value) = value := fill_segmentsFrom (le_refl value.length)

theorem isMarker_of_mem_segmentsFrom {fuel : Nat} (h : .hole m ∈ segmentsFrom fuel s) : IsMarker m := by
  induction fuel generalizing s with
  | zero => exact absurd h (by simp [segmentsFrom])
  | succ fuel ih =>
    cases s with
    | nil => exact absurd h (by simp [segmentsFrom])
    | cons c s =>
      unfold segmentsFrom at h
      split at h
      · next hstarts =>
        rcases List.mem_cons.mp h with heq | hrest
        · rw [Piece.hole.inj heq]
          exact (startsMarker_iff.mp hstarts).2
        · exact ih hrest
      · rcases List.mem_cons.mp h with heq | hrest
        · exact absurd heq (by simp)
        · exact ih hrest

theorem isMarker_of_mem_findAll (h : m ∈ findAll value) : IsMarker m :=
  isMarker_of_mem_segmentsFrom (mem_holes.mp h)

theorem containsMarker_iff : containsMarker value = true ↔ markerPrefix <:+: value :=
  decide_eq_true_iff

/-- Without the first bytes of a marker a value has no segment but its own bytes, and it stays as it is. -/
theorem replaceAll_of_not_contains (f : Bytes → Bytes) (h : containsMarker value = false) :
    replaceAll f value = value := by
  have hplain : segments value = value.map .plain := by
    unfold segments
    have hno : ¬markerPrefix <:+: value := fun hin => by simp [containsMarker_iff.mpr hin] at h
    generalize hfuel : value.length = fuel
    clear h
    induction fuel generalizing value with
    | zero => rw [List.length_eq_zero_iff.mp hfuel]; rfl
    | succ fuel ih =>
      cases value with
      | nil => exact absurd hfuel (by simp)
      | cons c s =>
        have hstarts : startsMarker (c :: s) = false := by
          refine Bool.eq_false_iff.mpr fun hstarts => hno ?_
          exact ((startsMarker_iff.mp hstarts).2.begins.trans (List.take_prefix _ _)).isInfix
        unfold segmentsFrom
        rw [if_neg (by simp [hstarts]), List.map_cons,
          ih (fun hin => hno (hin.trans (List.suffix_cons c s).isInfix)) (by simpa using hfuel)]
  unfold replaceAll
  rw [hplain, fill_map_plain]

/-! ## One value -/

section Value

variable {value : Bytes}

/-- `markerPrefix` does not occur but in markers. -/
def Clean (value : Bytes) : Prop := containsMarker (replaceAll (fun _ => []) value) = false

/-- What is left between markers does not hold `markerPrefix`. -/
theorem Clean.not_plain (h : Clean value) (s₁ s₂ : List (Piece UInt8)) :
    segments value ≠ s₁ ++ markerPrefix.map .plain ++ s₂ := by
  intro hsplit
  refine Bool.eq_false_iff.mp h (containsMarker_iff.mpr ?_)
  unfold replaceAll
  rw [hsplit, fill_append, fill_append, fill_map_plain]
  exact ⟨_, _, rfl⟩

variable {a : Bytes}

/-- **An occurrence of `markerPrefix` in a clean value begins a marker.** -/
theorem Clean.occurrence (h : Clean value) {b : Bytes} (hvalue : value = a ++ markerPrefix ++ b) :
    ∃ m ∈ findAll value, ∃ c, value = a ++ m ++ c := by
  have hfill : fill id (segments value) = a ++ markerPrefix ++ b := (fill_segments value).trans hvalue
  have hholes : ∀ m, .hole m ∈ segments value → Headed headByte m :=
    fun m hm => (isMarker_of_mem_segmentsFrom hm).headed
  rcases exists_hole_of_headed headed_prefix hholes hfill with ⟨s₁, m, s₂, hsplit, rfl⟩ | ⟨s₁, s₂, hsplit⟩
  · refine ⟨m, mem_holes.mpr (by rw [hsplit]; simp), fill id s₂, ?_⟩
    calc value = fill id (segments value) := (fill_segments value).symm
      _ = fill id s₁ ++ m ++ fill id s₂ := by rw [hsplit, fill_append, fill_hole, id_eq, List.append_assoc]
  · exact absurd hsplit (h.not_plain s₁ s₂)

/-- In a value with its markers replaced, `markerPrefix` after `a` touches what stands in the place of a selected
marker. -/
def Touches (f : Bytes → Bytes) (selectors : List Bytes) (value a : Bytes) : Prop :=
  ∃ s₁ m s₂, segments value = s₁ ++ .hole m :: s₂ ∧ m ∈ selectors ∧
    (fill f s₁).length < a.length + markerPrefix.length ∧ a.length < (fill f s₁).length + (f m).length

/-- **After the replacement an occurrence touches a value that was put in.** -/
theorem Clean.occurrence_replaced (h : Clean value) {f : Bytes → Bytes} {b : Bytes}
    (hreplaced : replaceAll f value = a ++ markerPrefix ++ b) : Touches f (findAll value) value a := by
  rcases fill_eq_append (by decide) hreplaced with ⟨s₁, m, s₂, hsplit, hbefore, hafter⟩ | ⟨s₁, s₂, hsplit⟩
  · exact ⟨s₁, m, s₂, hsplit, mem_holes.mpr (by rw [hsplit]; simp), hbefore, hafter⟩
  · exact absurd hsplit (h.not_plain s₁ s₂)

theorem Touches.mono {f : Bytes → Bytes} {S S' : List Bytes} (h : Touches f S value a) (hS : ∀ m ∈ S, m ∈ S') :
    Touches f S' value a := by
  obtain ⟨s₁, m, s₂, hsplit, hm, hbounds⟩ := h
  exact ⟨s₁, m, s₂, hsplit, hS m hm, hbounds⟩

end Value

/-! ## All headers -/

section Headers

variable {lib : TextLibraries} {header : Header} {selectors : List Bytes}

/-- A header that a Secret may stand in. -/
structure Open (lib : TextLibraries) (header : Header) (name : Bytes) : Prop where
  forbidden : forbiddenHeader lib name = false
  webSocket : webSocketHeader lib name = false
  nominated : connectionNominates lib header name = false

/-- A value with markers of the selection in a header that may hold them. -/
structure Accepted (lib : TextLibraries) (header : Header) (selectors : List Bytes) (name value : Bytes) : Prop where
  allowed : Open lib header name
  clean : Clean value
  selected : ∀ m ∈ findAll value, m ∈ selectors

variable {name value : Bytes} {values : List Bytes}

theorem valueMarkers_eq_ok {found : List Bytes} (h : valueMarkers lib header name value = .ok found)
    (hin : containsMarker value = true) : Open lib header name ∧ Clean value ∧ found = findAll value := by
  unfold valueMarkers at h
  rw [if_neg (by simp [hin])] at h
  obtain ⟨_, hplace, h₁⟩ := bind_eq_ok.mp h
  obtain ⟨_, hclean, h₂⟩ := bind_eq_ok.mp h₁
  obtain rfl := pure_eq_ok.mp h₂
  simp only [reject_eq_ok, not_or, Bool.not_eq_true] at hplace hclean
  exact ⟨⟨hplace.1, hplace.2.1, hplace.2.2⟩, hclean.1, rfl⟩

/-- What a selection says about every header. -/
theorem markers_eq_ok (h : markers lib header = .ok selectors) (hentry : (name, values) ∈ header) :
    containsMarker name = false ∧
      ∀ value ∈ values, containsMarker value = true → Accepted lib header selectors name value := by
  obtain ⟨found, hfound, h₁⟩ := bind_eq_ok.mp h
  obtain rfl := pure_eq_ok.mp h₁
  obtain ⟨inEntry, hmem, hin⟩ := exists_mem_of_mapM hfound (name, values) hentry
  obtain ⟨_, hname, h₂⟩ := bind_eq_ok.mp hin
  obtain ⟨parts, hparts, h₃⟩ := bind_eq_ok.mp h₂
  obtain rfl := pure_eq_ok.mp h₃
  rw [reject_eq_ok, Bool.not_eq_true] at hname
  refine ⟨hname, fun value hvalue hcontains => ?_⟩
  obtain ⟨part, hpart, hvalueMarkers⟩ := exists_mem_of_mapM hparts value hvalue
  obtain ⟨hopen, hclean, rfl⟩ := valueMarkers_eq_ok hvalueMarkers hcontains
  refine ⟨hopen, hclean, fun m hm => ?_⟩
  rw [List.mem_insertionSort, List.mem_dedup]
  exact List.mem_flatten_of_mem hmem (List.mem_flatten_of_mem hpart hm)

theorem markers_replaced (h : markers lib header = .ok selectors) (hentry : (name, values) ∈ header)
    (hvalue : value ∈ values) {f : Bytes → Bytes} {a b : Bytes}
    (hreplaced : replaceAll f value = a ++ markerPrefix ++ b) : Touches f selectors value a := by
  by_cases hcontains : containsMarker value = true
  · have haccepted := (markers_eq_ok h hentry).2 value hvalue hcontains
    exact (haccepted.clean.occurrence_replaced hreplaced).mono haccepted.selected
  · rw [replaceAll_of_not_contains f (by simpa using hcontains)] at hreplaced
    exact absurd (containsMarker_iff.mpr ⟨a, b, hreplaced.symm⟩) hcontains

/-! ## Names -/

theorem asciiLower_capitalize (upper : Bool) (s : Bytes) : asciiLower (capitalize upper s) = asciiLower s := by
  induction s generalizing upper with
  | nil => rfl
  | cons c s ih =>
    have hletter : 97 ≤ c.toNat ∧ c.toNat ≤ 122 → lowerLetter (c - 32) = lowerLetter c :=
      forall_octet c (by decide +kernel)
    have hcapital : 65 ≤ c.toNat ∧ c.toNat ≤ 90 → lowerLetter (c + 32) = lowerLetter c :=
      forall_octet c (by decide +kernel)
    show lowerLetter _ :: asciiLower (capitalize (c == hyphen) s) = lowerLetter c :: asciiLower s
    rw [ih]
    congr 1
    split
    · next h => exact hletter h.2
    · split
      · next h => exact hcapital h.2
      · rfl

theorem asciiLower_canonicalKey (name : Bytes) : asciiLower (canonicalKey name) = asciiLower name := by
  unfold canonicalKey
  split
  · exact asciiLower_capitalize true name
  · rfl

theorem ascii_of_tokenByte {c : UInt8} (h : isTokenByte c = true) : c.toNat < 128 := by
  revert h
  exact forall_octet c (by decide +kernel)

theorem toLower_canonicalKey (lower : Lowering) (name : Bytes) :
    toLower lower (canonicalKey name) = toLower lower name := by
  by_cases htoken : name.all isTokenByte = true
  · have hascii : IsAscii name := fun c hc => ascii_of_tokenByte (List.all_eq_true.mp htoken c hc)
    have hkey : IsAscii (canonicalKey name) := by
      rw [← ascii_asciiLower, asciiLower_canonicalKey, ascii_asciiLower]
      exact hascii
    rw [toLower_of_ascii lower hkey, toLower_of_ascii lower hascii, asciiLower_canonicalKey]
  · unfold canonicalKey
    rw [if_neg htoken]

theorem forbiddenHeader_canonicalKey (name : Bytes) :
    forbiddenHeader lib (canonicalKey name) = forbiddenHeader lib name := by
  unfold forbiddenHeader
  rw [toLower_canonicalKey]

/-! ## What is stripped -/

theorem mem_foldl_del {keys : List Bytes} {entry : Bytes × List Bytes} :
    entry ∈ keys.foldl Header.del header ↔ entry ∈ header ∧ ∀ key ∈ keys, entry.1 ≠ canonicalKey key := by
  induction keys generalizing header with
  | nil => simp
  | cons key keys ih =>
    rw [List.foldl_cons, ih, List.forall_mem_cons]
    unfold Header.del
    rw [List.mem_filter, decide_eq_true_iff, and_assoc]

/-- A header is removed because `Connection` names it or because of its own name. -/
theorem removed_cases {entry : Bytes × List Bytes} (hentry : entry ∈ header)
    (hremoved : entry ∉ stripHopHeaders lib header) :
    (∃ key ∈ nominated header, entry.1 = canonicalKey key) ∨ forbiddenHeader lib entry.1 = true := by
  unfold stripHopHeaders at hremoved
  rw [mem_foldl_del, mem_foldl_del] at hremoved
  by_contra hkept
  push Not at hkept
  refine hremoved ⟨⟨hentry, hkept.1⟩, fun key hkey heq => hkept.2 ?_⟩
  rw [heq, forbiddenHeader_canonicalKey]
  exact (List.mem_filter.mp hkey).2

theorem mem_of_mem_values (h : value ∈ header.values name) :
    ∃ values, (canonicalKey name, values) ∈ header ∧ value ∈ values := by
  unfold Header.values at h
  cases hlookup : header.lookup (canonicalKey name) with
  | none =>
    rw [hlookup] at h
    exact absurd h (by simp)
  | some values =>
    rw [hlookup] at h
    obtain ⟨before, after, hsplit, -⟩ := List.lookup_eq_some_iff.mp hlookup
    refine ⟨values, ?_, h⟩
    rw [hsplit]
    simp

theorem values_mapValues (f : Bytes → Bytes) (name : Bytes) :
    (header.mapValues f).values name = (header.values name).map f := by
  unfold Header.values Header.mapValues
  induction header with
  | nil => rfl
  | cons entry header ih =>
    rw [List.map_cons, List.lookup_cons, List.lookup_cons]
    cases canonicalKey name == entry.1 with
    | true => rfl
    | false => exact ih

theorem connectionNominates_of_nominated {key : Bytes} (hkey : key ∈ nominated header)
    (hname : name = canonicalKey key) : connectionNominates lib header name = true := by
  obtain ⟨value, hvalue, hin⟩ := List.mem_flatMap.mp hkey
  obtain ⟨part, hpart, rfl⟩ := List.mem_map.mp hin
  refine List.any_eq_true.mpr ⟨value, hvalue, List.any_eq_true.mpr ⟨part, hpart, ?_⟩⟩
  apply lib.equalFold_of_ascii
  rw [hname, asciiLower_canonicalKey]

/-- The replacement changes nothing in `Connection`. -/
theorem nominated_replaced (h : markers lib header = .ok selectors) (f : Bytes → Bytes) :
    nominated (header.mapValues (replaceAll f)) = nominated header := by
  have hsame : ∀ value ∈ header.values (ascii "Connection"), replaceAll f value = value := by
    intro value hvalue
    obtain ⟨values, hentry, hin⟩ := mem_of_mem_values hvalue
    refine replaceAll_of_not_contains f (Bool.eq_false_iff.mpr fun hcontains => ?_)
    have hallowed := ((markers_eq_ok h hentry).2 value hin hcontains).allowed.forbidden
    have hforbidden : forbiddenHeader lib (ascii "Connection") = true := by
      unfold forbiddenHeader
      rw [toLower_of_ascii lib.lower (by decide +kernel)]
      decide +kernel
    rw [forbiddenHeader_canonicalKey, hforbidden] at hallowed
    exact absurd hallowed (by simp)
  unfold nominated
  rw [values_mapValues, List.map_congr_left hsame, List.map_id']

/-- **What is removed held no marker and nothing was put into it.** -/
theorem stripped_untouched (h : markers lib header = .ok selectors) (f : Bytes → Bytes)
    (hentry : (name, values) ∈ header)
    (hremoved : (name, values.map (replaceAll f)) ∉ stripHopHeaders lib (header.mapValues (replaceAll f))) :
    ∀ value ∈ values, ¬markerPrefix <:+: value ∧ replaceAll f value = value := by
  intro value hvalue
  have hno : containsMarker value = false := by
    refine Bool.eq_false_iff.mpr fun hcontains => ?_
    have hallowed := ((markers_eq_ok h hentry).2 value hvalue hcontains).allowed
    have hmem : (name, values.map (replaceAll f)) ∈ header.mapValues (replaceAll f) :=
      List.mem_map.mpr ⟨(name, values), hentry, rfl⟩
    rcases removed_cases hmem hremoved with ⟨key, hkey, hname⟩ | hforbidden
    · rw [nominated_replaced h f] at hkey
      exact Bool.eq_false_iff.mp hallowed.nominated (connectionNominates_of_nominated hkey hname)
    · exact Bool.eq_false_iff.mp hallowed.forbidden hforbidden
  exact ⟨fun hin => Bool.eq_false_iff.mp hno (containsMarker_iff.mpr hin), replaceAll_of_not_contains f hno⟩

end Headers

/-! ## Requests -/

section Requests

variable {lib : TextLibraries} {ε : Type} {conditions : Conditions ε} {r : Request} {expected : Bytes}

/-- The resolver's answer for exactly these selectors: a value for each of them, and none for anything else. It is
not asked where nothing is selected. -/
structure Resolved (conditions : Conditions ε) (expected : Bytes) (selectors : List Bytes)
    (values : List (Bytes × Bytes)) : Prop where
  source : selectors = [] ∨ conditions.resolve expected selectors = .ok values
  length : values.length = selectors.length
  present : ∀ s ∈ selectors, ∃ value, values.lookup s = some value ∧ value ≠ []

theorem resolveValues_sends_nothing (selectors : List Bytes) (sent : Header) :
    .roundTrip sent ∉ (resolveValues conditions expected selectors).1 := by
  unfold resolveValues
  split
  · exact List.not_mem_nil
  · split
    · exact List.not_mem_nil
    · simp

/-- No marker and no value, or the answer of one resolution. -/
theorem resolveValues_eq_ok {selectors : List Bytes} {values : List (Bytes × Bytes)}
    (h : (resolveValues conditions expected selectors).2 = .ok values) :
    Resolved conditions expected selectors values := by
  unfold resolveValues at h
  split at h
  · next hnone =>
    obtain rfl := Except.ok.inj h
    rw [List.length_eq_zero_iff.mp hnone]
    exact ⟨.inl rfl, rfl, by simp⟩
  · split at h
    · exact nomatch h
    · dsimp only at h
      split at h
      · exact nomatch h
      · next hresolve =>
        split at h
        · exact nomatch h
        · next hlength =>
          split at h
          · next hall =>
            obtain rfl := Except.ok.inj h
            refine ⟨.inr hresolve, not_not.mp hlength, fun s hs => ?_⟩
            have hvalue := List.all_eq_true.mp hall s hs
            split at hvalue
            · next value hlookup =>
              refine ⟨value, hlookup, ?_⟩
              rintro rfl
              exact absurd hvalue (by simp)
            · exact absurd hvalue (by simp)
          · exact nomatch h

/-- Without a selection a request is answered at once. -/
theorem forward_refuses {error : MarkerError} (h : markers lib r.header = .error error) :
    (forward lib conditions r expected).1 = [] ∧ (forward lib conditions r expected).2 ≠ .proxied := by
  unfold forward
  rw [h]
  dsimp only
  split_ifs <;> exact ⟨rfl, nofun⟩

/-- What is sent comes from a selection and its values. -/
theorem forward_sends {sent : Header} (h : .roundTrip sent ∈ (forward lib conditions r expected).1) :
    ∃ selectors values, markers lib r.header = .ok selectors ∧ Resolved conditions expected selectors values ∧
      sent = outgoing (isUpgrade lib r.header)
        (stripHopHeaders lib (r.header.mapValues (replaceAll (valueOf values)))) := by
  cases hmarkers : markers lib r.header with
  | error error =>
    rw [(forward_refuses hmarkers).1] at h
    exact absurd h List.not_mem_nil
  | ok selectors =>
    unfold forward at h
    rw [hmarkers] at h
    dsimp only at h
    split_ifs at h
    all_goals try exact absurd h List.not_mem_nil
    have hquiet : .roundTrip sent ∉ (resolveValues conditions expected selectors).1 :=
      resolveValues_sends_nothing selectors sent
    cases hresolve : resolveValues conditions expected selectors with
    | mk actions resolved =>
      rw [hresolve] at h hquiet
      cases resolved with
      | error answer => exact absurd h hquiet
      | ok values =>
        dsimp only at h
        split_ifs at h
        · exact absurd h hquiet
        · rcases List.mem_append.mp h with hold | hnew
          · exact absurd hold hquiet
          · refine ⟨selectors, values, rfl, resolveValues_eq_ok (congrArg Prod.snd hresolve), ?_⟩
            exact Action.roundTrip.inj (List.mem_singleton.mp hnew)

variable {header : Header} {name : Bytes}

theorem mem_del {entry : Bytes × List Bytes} (h : entry ∈ header.del name) :
    entry ∈ header := (List.mem_filter.mp h).1

theorem mem_put {value : Bytes} {entry : Bytes × List Bytes} (h : entry ∈ header.put name value) :
    entry = (canonicalKey name, [value]) ∨ entry ∈ header := by
  rcases List.mem_cons.mp h with heq | hrest
  · exact .inl heq
  · exact .inr (mem_del hrest)

/-- What the proxy adds by itself holds no `markerPrefix`. -/
theorem mem_outgoing {upgrade : Bool} {values : List Bytes} (h : (name, values) ∈ outgoing upgrade header)
    {value : Bytes} (hvalue : value ∈ values) (hin : markerPrefix <:+: value) : (name, values) ∈ header := by
  unfold outgoing at h
  dsimp only at h
  split at h
  · rcases mem_put h with heq | h₁
    · obtain ⟨-, rfl⟩ := Prod.mk.inj heq
      rw [List.mem_singleton.mp hvalue] at hin
      exact absurd hin (by decide)
    · rcases mem_put h₁ with heq | h₂
      · obtain ⟨-, rfl⟩ := Prod.mk.inj heq
        rw [List.mem_singleton.mp hvalue] at hin
        exact absurd hin (by decide)
      · exact mem_del (mem_del (mem_del (mem_del h₂)))
  · exact mem_del (mem_del (mem_del (mem_del h)))

/-- **Everything that looks like a marker in what is sent touches a Secret's value.** -/
theorem sent_touches {selectors : List Bytes} {values : List (Bytes × Bytes)}
    (hmarkers : markers lib r.header = .ok selectors) {upgrade : Bool} {sentValues : List Bytes}
    (hsent : (name, sentValues) ∈
      outgoing upgrade (stripHopHeaders lib (r.header.mapValues (replaceAll (valueOf values))))) {v : Bytes}
    (hv : v ∈ sentValues) {a b : Bytes} (hoccurs : v = a ++ markerPrefix ++ b) :
    ∃ guestValues, (name, guestValues) ∈ r.header ∧ ∃ value ∈ guestValues,
      v = replaceAll (valueOf values) value ∧ Touches (valueOf values) selectors value a := by
  have hstripped := mem_outgoing hsent hv ⟨a, b, hoccurs.symm⟩
  have hreplaced : (name, sentValues) ∈ r.header.mapValues (replaceAll (valueOf values)) := by
    unfold stripHopHeaders at hstripped
    exact (mem_foldl_del.mp (mem_foldl_del.mp hstripped).1).1
  obtain ⟨⟨name', guestValues⟩, hentry, heq⟩ := List.mem_map.mp hreplaced
  obtain ⟨rfl, rfl⟩ := Prod.mk.inj heq
  obtain ⟨value, hvalue, rfl⟩ := List.mem_map.mp hv
  exact ⟨guestValues, hentry, value, hvalue, rfl, markers_replaced hmarkers hentry hvalue hoccurs⟩

end Requests

/-- **Markers are found where they may stand, and each is replaced by the value resolved for it.** What is sent is the
guest's header with every marker replaced (`forward_sends`), without what `stripHopHeaders` removes and with what the
proxy says itself; it holds nothing like a marker but around the values (`sent_touches`). -/
theorem markers_are_substituted (lib : TextLibraries) :
    (∀ header selectors, markers lib header = .ok selectors → ∀ name values, (name, values) ∈ header →
      ¬markerPrefix <:+: name ∧
      (∀ value ∈ values, ∀ a b, value = a ++ markerPrefix ++ b →
        Open lib header name ∧ ∃ m ∈ selectors, IsMarker m ∧ ∃ c, value = a ++ m ++ c) ∧
      ∀ f : Bytes → Bytes,
        (name, values.map (replaceAll f)) ∉ stripHopHeaders lib (header.mapValues (replaceAll f)) →
        ∀ value ∈ values, ¬markerPrefix <:+: value ∧ replaceAll f value = value) ∧
    ∀ (ε : Type) (conditions : Conditions ε) (r : Request) (expected : Bytes),
      (∀ error, markers lib r.header = .error error →
        (forward lib conditions r expected).1 = [] ∧ (forward lib conditions r expected).2 ≠ .proxied) ∧
      ∀ sent, .roundTrip sent ∈ (forward lib conditions r expected).1 →
        ∃ selectors values, markers lib r.header = .ok selectors ∧ Resolved conditions expected selectors values ∧
          sent = outgoing (isUpgrade lib r.header)
            (stripHopHeaders lib (r.header.mapValues (replaceAll (valueOf values)))) ∧
          ∀ name sentValues, (name, sentValues) ∈ sent → ∀ v ∈ sentValues, ∀ a b, v = a ++ markerPrefix ++ b →
            ∃ guestValues, (name, guestValues) ∈ r.header ∧ ∃ value ∈ guestValues,
              v = replaceAll (valueOf values) value ∧ Touches (valueOf values) selectors value a := by
  refine ⟨fun header selectors h name values hentry => ⟨?_, ?_, ?_⟩, fun ε conditions r expected => ⟨?_, ?_⟩⟩
  · intro hin
    exact Bool.eq_false_iff.mp (markers_eq_ok h hentry).1 (containsMarker_iff.mpr hin)
  · intro value hvalue a b hoccurs
    have haccepted := (markers_eq_ok h hentry).2 value hvalue (containsMarker_iff.mpr ⟨a, b, hoccurs.symm⟩)
    obtain ⟨m, hm, c, hc⟩ := haccepted.clean.occurrence hoccurs
    exact ⟨haccepted.allowed, m, haccepted.selected m hm, isMarker_of_mem_findAll hm, c, hc⟩
  · intro f hremoved
    exact stripped_untouched h f hentry hremoved
  · intro error h
    exact forward_refuses h
  · intro sent hsent
    obtain ⟨selectors, values, hmarkers, hresolved, rfl⟩ := forward_sends hsent
    refine ⟨selectors, values, hmarkers, hresolved, rfl, fun name sentValues hmem v hv a b hoccurs => ?_⟩
    exact sent_touches hmarkers hmem hv hoccurs

/-! A guest that puts the halves of one marker around another one. -/

def textLibraries : TextLibraries where
  toLibraries := Secret.plainLibraries
  equalFold a b := asciiLower a == asciiLower b
  equalFold_of_ascii h := beq_iff_eq.mpr h

def firstMarker : Bytes := markerPrefix ++ List.replicate 64 0x61

def secondMarker : Bytes := markerPrefix ++ List.replicate 64 0x62

def guestRequest : Request where
  method := ascii "GET"
  requestURI := ascii "/"
  host := ascii "api.example"
  absolute := none
  protoMajor := 1
  protoMinor := 1
  header := [(ascii "X-First", [ascii "hlm" ++ firstMarker ++ ascii "_protected_" ++ List.replicate 64 0x62]),
    (ascii "X-Second", [secondMarker])]
  contentLength := 0
  transferEncoding := []
  trailer := []

def granting : Conditions Unit where
  closed := false
  slotFree := true
  cancelled := false
  allowedDestination := true
  resolve _ _ := .ok [(firstMarker, ascii "r"), (secondMarker, ascii "token")]

theorem guest_text_completes_marker :
    markers textLibraries guestRequest.header = .ok [firstMarker, secondMarker] ∧
    ¬secondMarker <:+: ascii "r" ∧ ¬secondMarker <:+: ascii "token" ∧
    forward textLibraries granting guestRequest (ascii "https://api.example") =
      ([.resolve (ascii "https://api.example") [firstMarker, secondMarker],
        .roundTrip [(ascii "X-First", [secondMarker]), (ascii "X-Second", [ascii "token"])]], .proxied) := by
  refine ⟨by decide +kernel, by decide, by decide, by decide +kernel⟩

end Helmr.SecretProxy
