import Helmr.Secret.Origin
import Helmr.Network.Canonical

/-!
# Secret — what an origin names

An accepted text has a canonical origin made of a host and a port (`canonicalOrigin_eq_ok`), different hosts and
ports make different origins (`render_inj`), and an origin is its own (`accepts_render`). The proxy makes the same
origin of a host and a port (`authority_join`), and of a connection that of the name it asks for (`reaches_join`).
Both parsers lower the host before they look at its characters, so the host of the origin is the lowered one: that
of the text up to the case of ASCII letters if it is ASCII, and never otherwise (`origins_name_one_host_iff`).
-/

namespace Helmr.Secret

open Wire Wire.Url Fallible

/-! ## Spaces -/

variable {s : Bytes} {c : UInt8} {host port : Bytes} {u : URL}

theorem find_spaces_eq_none {seps : List Bytes} (hs : s.head? = some c)
    (hseps : ∀ sep ∈ seps, sep ≠ [] ∧ sep.head? ≠ some c) : seps.find? (·.isPrefixOf s) = none := by
  refine List.find?_eq_none.mpr fun sep hsep hprefix => ?_
  obtain ⟨hne, hhead⟩ := hseps sep hsep
  obtain ⟨rest, rfl⟩ := List.isPrefixOf_iff_prefix.mp hprefix
  cases sep with
  | nil => exact hne rfl
  | cons d sep => exact hhead hs

/-- No space begins or ends with a visible ASCII character. -/
theorem spaces_invisible (hc : 0x20 < c.toNat ∧ c.toNat < 0x80) :
    ∀ sep ∈ spaces ++ spaces.map List.reverse, sep ≠ [] ∧ sep.head? ≠ some c := by
  have hall : ∀ sep ∈ spaces ++ spaces.map List.reverse,
      sep.head?.any (fun d => decide (d.toNat ≤ 0x20 ∨ 0x80 ≤ d.toNat)) = true := by decide
  intro sep hsep
  have hfirst := hall sep hsep
  cases sep with
  | nil => cases hfirst
  | cons d sep =>
    refine ⟨List.cons_ne_nil _ _, fun heq => ?_⟩
    have hd := of_decide_eq_true hfirst
    rw [Option.some.inj heq] at hd
    omega

/-- A string that begins and ends with visible ASCII characters has nothing to trim. -/
theorem trimSpace_eq_self {a b : UInt8} (ha : s.head? = some a) (ha' : 0x20 < a.toNat ∧ a.toNat < 0x80)
    (hb : s.getLast? = some b) (hb' : 0x20 < b.toNat ∧ b.toNat < 0x80) : trimSpace s = s := by
  have hleft (seps : List Bytes) (t : Bytes) (c : UInt8) (hc : t.head? = some c)
      (hseps : ∀ sep ∈ seps, sep ≠ [] ∧ sep.head? ≠ some c) (n : Nat) : trimLeft seps n t = t := by
    cases n with
    | zero => rfl
    | succ n => rw [trimLeft, find_spaces_eq_none hc hseps]
  unfold trimSpace
  rw [hleft spaces s a ha fun sep hsep => spaces_invisible ha' sep (List.mem_append_left _ hsep)]
  dsimp only
  rw [hleft _ s.reverse b (by rw [List.head?_reverse, hb])
    fun sep hsep => spaces_invisible hb' sep (List.mem_append_right _ hsep), List.reverse_reverse]

/-! ## Host names -/

theorem mem_labels (h : c ∈ host) : c = Network.period ∨ ∃ l ∈ Network.labels host, c ∈ l := by
  unfold Network.labels List.splitOn
  induction host with
  | nil => cases h
  | cons x host ih =>
    rw [List.splitOnP_cons_eq_if_modifyHead]
    split
    · next hx =>
      rcases List.mem_cons.mp h with rfl | h
      · exact .inl (eq_of_beq hx)
      · obtain hc | ⟨l, hl, hcl⟩ := ih h
        · exact .inl hc
        · exact .inr ⟨l, List.mem_cons_of_mem _ hl, hcl⟩
    · obtain ⟨first, rest, hsplit⟩ := List.exists_cons_of_ne_nil (List.splitOnP_ne_nil (· == Network.period) host)
      rw [hsplit] at ih ⊢
      rcases List.mem_cons.mp h with rfl | h
      · exact .inr ⟨c :: first, List.mem_cons_self, List.mem_cons_self⟩
      · obtain hc | ⟨l, hl, hcl⟩ := ih h
        · exact .inl hc
        · rcases List.mem_cons.mp hl with rfl | hl
          · exact .inr ⟨x :: l, List.mem_cons_self, List.mem_cons_of_mem _ hcl⟩
          · exact .inr ⟨l, List.mem_cons_of_mem _ hl, hcl⟩

/-- What both parsers require of a host name. -/
theorem plain_of_valid {lib : Libraries} (h : validOriginHostname lib host = true) :
    host ≠ [] ∧ host.all isPlain = true := by
  unfold validOriginHostname at h
  split at h
  · cases h
  next hlength =>
  split at h
  · cases h
  split at h
  · cases h
  refine ⟨fun hnil => hlength (.inl (by rw [hnil]; rfl)), List.all_eq_true.mpr fun c hc => ?_⟩
  rcases mem_labels hc with rfl | ⟨l, hl, hcl⟩
  · decide
  · have hlabel := List.all_eq_true.mp h l hl
    unfold validLabel at hlabel
    rw [Bool.and_eq_true] at hlabel
    have hbyte := List.all_eq_true.mp hlabel.2 c hcl
    unfold Network.isLabelByte at hbyte
    unfold isPlain
    rw [Bool.or_eq_true, decide_eq_true_eq] at hbyte
    rcases hbyte with hbyte | rfl
    · rw [hbyte]
      rfl
    · decide

theorem parseAddr_of_valid {lib : Libraries} (h : validOriginHostname lib host = true) :
    parseAddr lib host = none := by
  unfold validOriginHostname at h
  split at h
  · cases h
  split at h
  · cases h
  split at h
  · cases h
  · next haddr => exact Option.not_isSome_iff_eq_none.mp haddr

theorem plain_cases (h : isPlain c = true) :
    (0x20 < c.toNat ∧ c.toNat < 0x80) ∧ lowerLetter c = c ∧ c ≠ colon ∧ c ≠ percent ∧ c ≠ 0x23 ∧
      refused.contains c = false ∧ c ≠ openBracket := by
  revert h
  exact forall_octet c (by decide +kernel)

/-! ## Origins -/

variable {lib : Libraries}

/-- The port that a URL names; without one it is that of its scheme. -/
def effectivePort (u : URL) : Bytes := if u.port = [] then httpsPort else u.port

/-- Equal up to the case of ASCII letters. -/
def CaseEq (a b : Bytes) : Prop := asciiLower a = asciiLower b

instance (a b : Bytes) : Decidable (CaseEq a b) := inferInstanceAs (Decidable (_ = _))

/-- The origin of a host and a port. -/
def render (host port : Bytes) : Bytes :=
  ascii "https://" ++ (if port = httpsPort then host else host ++ colon :: port)

/-- What is required of a lowered host. -/
structure OriginHost (lib : Libraries) (host : Bytes) : Prop where
  valid : validOriginHostname lib host = true
  not_local : host ≠ ascii "localhost"
  not_sublocal : ¬ascii ".localhost" <:+ host

/-- What is required of a text and its parts. -/
structure Accepts (lib : Libraries) (raw : Bytes) (u : URL) : Prop where
  parsed : lib.url.parse raw = some u
  exact_origin : ¬(u.scheme ≠ https ∨ u.opaquePart ≠ [] ∨ u.user = true ∨ u.host = [] ∨
    (u.path ≠ [] ∧ u.path ≠ ascii "/") ∨ u.rawPath ≠ [] ∨ u.rawQuery ≠ [] ∨ u.forceQuery = true ∨ u.fragment ≠ [] ∨
    0x23 ∈ raw ∨ trimSpace raw ≠ raw)
  host : OriginHost lib (toLower lib.lower u.hostname)
  last : u.host.getLast? ≠ some colon
  port : u.port ≠ [] → validPort u.port = true

theorem OriginHost.plain (h : OriginHost lib host) : ∀ c ∈ host, isPlain c = true :=
  List.all_eq_true.mp (plain_of_valid h.valid).2

theorem OriginHost.colon_notMem (h : OriginHost lib host) : colon ∉ host :=
  fun hmem => (plain_cases (h.plain _ hmem)).2.2.1 rfl

theorem OriginHost.ascii (h : OriginHost lib host) : IsAscii host :=
  fun c hc => (plain_cases (h.plain c hc)).1.2

theorem OriginHost.asciiLower_eq (h : OriginHost lib host) : asciiLower host = host := by
  refine (List.map_congr_left fun c hc => ?_).trans (List.map_id host)
  exact (plain_cases (h.plain c hc)).2.1

theorem OriginHost.toLower_eq (h : OriginHost lib host) : toLower lib.lower host = host :=
  (toLower_of_ascii lib.lower h.ascii).trans h.asciiLower_eq

theorem OriginHost.unbracket_eq (h : OriginHost lib host) : unbracket host = host := by
  refine unbracket_of_head fun hhead => ?_
  exact (plain_cases (h.plain _ (List.mem_of_mem_head? hhead))).2.2.2.2.2.2 rfl

theorem joinHostPort_of_plain (h : OriginHost lib host) (port : Bytes) :
    joinHostPort host port = host ++ colon :: port := by
  rw [joinHostPort, if_neg h.colon_notMem, List.append_assoc]
  rfl

theorem validPort_iff (h : validPort port = true) : port ≠ [] ∧ port.all Json.isDigit = true := by
  unfold validPort at h
  split at h
  · next n hn =>
    unfold Network.parseDecimal at hn
    split at hn
    · next hport => exact ⟨hport.1, hport.2.1⟩
    · cases hn
  · cases h

/-- **An accepted text and its origin.** -/
theorem canonicalOrigin_eq_ok {raw o : Bytes} : canonicalOrigin lib raw = .ok o ↔
    ∃ u, Accepts lib raw u ∧ o = render (toLower lib.lower u.hostname) (effectivePort u) := by
  unfold canonicalOrigin
  constructor
  · intro h
    obtain ⟨u, hparse, h₁⟩ := bind_eq_ok.mp h
    obtain ⟨_, hexact, h₂⟩ := bind_eq_ok.mp h₁
    obtain ⟨_, hhost, h₃⟩ := bind_eq_ok.mp h₂
    obtain ⟨_, hlast, h₄⟩ := bind_eq_ok.mp h₃
    have hhost := reject_eq_ok.mp hhost
    push Not at hhost
    have horigin : OriginHost lib (toLower lib.lower u.hostname) :=
      ⟨Bool.eq_true_of_not_eq_false hhost.1, hhost.2.1, hhost.2.2⟩
    refine ⟨u, ⟨orFail_eq_ok.mp hparse, reject_eq_ok.mp hexact, horigin, reject_eq_ok.mp hlast, fun hport => ?_⟩, ?_⟩
    · rw [if_pos hport] at h₄
      obtain ⟨_, hvalid, -⟩ := bind_eq_ok.mp h₄
      exact Bool.eq_true_of_not_eq_false (reject_eq_ok.mp hvalid)
    · by_cases hport : u.port = []
      · rw [if_neg (not_not.mpr hport)] at h₄
        rw [render, effectivePort, if_pos hport, if_pos rfl]
        exact (pure_eq_ok.mp h₄).symm
      · rw [if_pos hport] at h₄
        obtain ⟨_, -, h₅⟩ := bind_eq_ok.mp h₄
        rw [← pure_eq_ok.mp h₅, joinHostPort_of_plain horigin, render, effectivePort, if_neg hport, ite_not]
  · rintro ⟨u, haccepts, rfl⟩
    have hhost : ¬(validOriginHostname lib (toLower lib.lower u.hostname) = false ∨
        toLower lib.lower u.hostname = ascii "localhost" ∨ ascii ".localhost" <:+ toLower lib.lower u.hostname) := by
      rw [haccepts.host.valid]
      rintro (h | h | h)
      · cases h
      · exact haccepts.host.not_local h
      · exact haccepts.host.not_sublocal h
    rw [haccepts.parsed, orFail, ok_bind, reject_false haccepts.exact_origin, ok_bind]
    dsimp only
    rw [reject_false hhost, ok_bind, reject_false haccepts.last, ok_bind, render, effectivePort]
    by_cases hport : u.port = []
    · rw [if_neg (not_not.mpr hport), if_pos hport, if_pos rfl]
      rfl
    · rw [if_pos hport, if_neg hport, haccepts.port hport, reject_false Bool.noConfusion, ok_bind,
        joinHostPort_of_plain haccepts.host, ite_not]
      rfl

/-! ## Different hosts and ports make different origins -/

theorem colon_notMem_digits (h : port.all Json.isDigit = true) : colon ∉ port :=
  fun hmem => absurd (List.all_eq_true.mp h colon hmem) (by decide)

theorem render_inj {host' port' : Bytes} (hhost : colon ∉ host) (hhost' : colon ∉ host')
    (hport : port.all Json.isDigit = true) (hport' : port'.all Json.isDigit = true)
    (h : render host port = render host' port') : host = host' ∧ port = port' := by
  have hrest := List.append_cancel_left h
  have hmem (a b : Bytes) : colon ∈ a ++ colon :: b := List.mem_append_right _ List.mem_cons_self
  split at hrest
  · next hdefault =>
    split at hrest
    · next hdefault' => exact ⟨hrest, hdefault.trans hdefault'.symm⟩
    · exact absurd (hrest ▸ hmem host' port') hhost
  · split at hrest
    · exact absurd (hrest ▸ hmem host port) hhost'
    · have hcut := congrArg cutLast hrest
      rw [cutLast_append _ (colon_notMem_digits hport), cutLast_append _ (colon_notMem_digits hport')] at hcut
      cases hcut
      exact ⟨rfl, rfl⟩

/-! ## An origin names its host and port -/

theorem Accepts.validPort {raw : Bytes} (h : Accepts lib raw u) : Secret.validPort (effectivePort u) = true := by
  unfold effectivePort
  split
  · decide
  · next hport => exact h.port hport

theorem plain_of_digit (h : Json.isDigit c = true) : isPlain c = true := by
  unfold isPlain
  rw [h]
  simp

/-- What follows the scheme in an origin. -/
def hostPort (host port : Bytes) : Bytes := if port = httpsPort then host else host ++ colon :: port

section

variable {host port : Bytes} (hhost : OriginHost lib host) (hport : validPort port = true)

include hhost hport

theorem plainHost_join : PlainHost (host ++ colon :: port) := by
  obtain ⟨hne, hplain⟩ := plain_of_valid hhost.valid
  obtain ⟨hport', hdigits⟩ := validPort_iff hport
  exact ⟨host, hne, hplain, .inr ⟨port, hport', hdigits, rfl⟩⟩

theorem plainHost_hostPort : PlainHost (hostPort host port) := by
  unfold hostPort
  split
  · obtain ⟨hne, hplain⟩ := plain_of_valid hhost.valid
    exact ⟨host, hne, hplain, .inl rfl⟩
  · exact plainHost_join hhost hport

theorem split_join : splitHostPort (host ++ colon :: port) = (host, port) := by
  rw [splitHostPort_append (validPort_iff hport).2, hhost.unbracket_eq]

theorem split_hostPort : splitHostPort (hostPort host port) = (host, if port = httpsPort then [] else port) := by
  unfold hostPort
  split
  · rw [splitHostPort_plain hhost.colon_notMem, hhost.unbracket_eq]
  · exact split_join hhost hport

/-- Every character of an origin's host and port, and the last one of them. -/
theorem hostPort_chars : (∀ c ∈ hostPort host port, isPlain c = true ∨ c = colon) ∧
    ∃ c, (hostPort host port).getLast? = some c ∧ isPlain c = true := by
  obtain ⟨hne, -⟩ := plain_of_valid hhost.valid
  obtain ⟨hport', hdigits⟩ := validPort_iff hport
  have hdigits := List.all_eq_true.mp hdigits
  unfold hostPort
  split
  · refine ⟨fun c hc => .inl (hhost.plain c hc), _, List.getLast?_eq_some_getLast hne, ?_⟩
    exact hhost.plain _ (List.getLast_mem hne)
  · refine ⟨fun c hc => ?_, port.getLast hport', ?_, plain_of_digit (hdigits _ (List.getLast_mem hport'))⟩
    · rcases List.mem_append.mp hc with hc | hc
      · exact .inl (hhost.plain c hc)
      · rcases List.mem_cons.mp hc with rfl | hc
        · exact .inr rfl
        · exact .inl (plain_of_digit (hdigits c hc))
    · rw [List.getLast?_append_cons, List.getLast?_cons, List.getLast?_eq_some_getLast hport']
      rfl

/-- **An origin is accepted, with its own host and port.** -/
theorem accepts_render : ∃ u, Accepts lib (render host port) u ∧ u.hostname = host ∧ effectivePort u = port := by
  have hparse := lib.url.plain _ (plainHost_hostPort hhost hport)
  have hsplit := split_hostPort hhost hport
  obtain ⟨hchars, last, hlast, hplain⟩ := hostPort_chars hhost hport
  have hrender : render host port = ascii "https://" ++ hostPort host port := rfl
  have hname : (URL.ofHost (ascii "https") (hostPort host port)).hostname = host := congrArg Prod.fst hsplit
  have hnumber : (URL.ofHost (ascii "https") (hostPort host port)).port = if port = httpsPort then [] else port :=
    congrArg Prod.snd hsplit
  refine ⟨_, ⟨hrender ▸ hparse, ?_, ?_, ?_, ?_⟩, hname, ?_⟩
  · have hnumberSign : 0x23 ∉ render host port := by
      intro hmem
      rcases List.mem_append.mp hmem with hmem | hmem
      · exact absurd hmem (by decide)
      · rcases hchars _ hmem with hc | hc
        · exact (plain_cases hc).2.2.2.2.1 rfl
        · exact absurd hc (by decide)
    have hspace : trimSpace (render host port) = render host port := by
      refine trimSpace_eq_self (a := 0x68) rfl (by decide) ?_ (plain_cases hplain).1
      rw [hrender, List.getLast?_append, hlast]
      rfl
    have hsome : hostPort host port ≠ [] := by
      intro hnil
      rw [hnil] at hlast
      cases hlast
    -- none of the reasons to refuse a text
    rintro (h | h | h | h | h | h | h | h | h | h | h)
    · exact h rfl
    · exact h rfl
    · cases h
    · exact hsome h
    · exact h.1 rfl
    · exact h rfl
    · exact h rfl
    · cases h
    · exact h rfl
    · exact hnumberSign h
    · exact h hspace
  · rw [hname, hhost.toLower_eq]
    exact hhost
  · show (hostPort host port).getLast? ≠ some colon
    rw [hlast]
    exact fun heq => (plain_cases hplain).2.2.1 (Option.some.inj heq)
  · rw [hnumber]
    intro hne
    split at hne
    · exact absurd rfl hne
    · next hdefault => rw [if_neg hdefault]; exact hport
  · rw [effectivePort, hnumber]
    by_cases hdefault : port = httpsPort
    · rw [if_pos hdefault, if_pos rfl, hdefault]
    · rw [if_neg hdefault, if_neg (validPort_iff hport).1]

end

/-! ## The authority of a connection -/

/-- What is required of the name and the port that a connection asks for. -/
structure Reaches (lib : Libraries) (value : Bytes) (u : URL) : Prop where
  parsed : lib.url.parse (ascii "https://" ++ value) = some u
  exact_value : ¬(u.user = true ∨ u.host ≠ value ∨ u.path ≠ [] ∨ u.rawQuery ≠ [] ∨ u.fragment ≠ [] ∨
    value.any (refused.contains ·) = true)
  host : ¬(parseAddr lib (toLower lib.lower u.hostname) = some false ∨
    (parseAddr lib (toLower lib.lower u.hostname) = none ∧
      validOriginHostname lib (toLower lib.lower u.hostname) = false))
  last : value.getLast? ≠ some colon
  port : validPort (effectivePort u) = true

/-- The checks of the proxy, in one predicate. -/
theorem authority_eq_ok {value o : Bytes} : authority lib value https = .ok o ↔
    ∃ u, Reaches lib value u ∧ o = render (toLower lib.lower u.hostname) (effectivePort u) := by
  have hscheme : https ++ ascii "://" ++ value = ascii "https://" ++ value := rfl
  have hhttp : ¬(https = ascii "http") := by decide
  have hrender (host port : Bytes) : (if ¬(https = https ∧ port = httpsPort ∨ https = ascii "http" ∧ port = ascii "80")
      then https ++ ascii "://" ++ host ++ [colon] ++ port else https ++ ascii "://" ++ host) = render host port := by
    unfold render
    by_cases hdefault : port = httpsPort
    · rw [if_neg (not_not.mpr (.inl ⟨rfl, hdefault⟩)), if_pos hdefault]
      rfl
    · rw [if_pos (by rintro (h | h); exacts [hdefault h.2, hhttp h.1]), if_neg hdefault]
      simp only [List.append_assoc]
      rfl
  unfold authority
  rw [hscheme]
  constructor
  · intro h
    obtain ⟨u, hparse, h₁⟩ := bind_eq_ok.mp h
    obtain ⟨_, hexact, h₂⟩ := bind_eq_ok.mp h₁
    obtain ⟨_, hhost, h₃⟩ := bind_eq_ok.mp h₂
    obtain ⟨_, hlast, h₄⟩ := bind_eq_ok.mp h₃
    obtain ⟨_, hport, h₅⟩ := bind_eq_ok.mp h₄
    have hport := Bool.eq_true_of_not_eq_false (reject_eq_ok.mp hport)
    refine ⟨u, ⟨orFail_eq_ok.mp hparse, reject_eq_ok.mp hexact, reject_eq_ok.mp hhost, reject_eq_ok.mp hlast,
      hport⟩, ?_⟩
    rw [← hrender]
    exact (pure_eq_ok.mp h₅).symm
  · rintro ⟨u, hreaches, rfl⟩
    have hport : ¬validPort (if u.port = [] then (if https = https then httpsPort else ascii "80") else u.port) =
        false := by
      rw [if_pos rfl]
      exact fun h => Bool.false_ne_true (h.symm.trans hreaches.port)
    rw [hreaches.parsed, orFail, ok_bind, reject_false hreaches.exact_value, ok_bind]
    dsimp only
    rw [reject_false hreaches.host, ok_bind, reject_false hreaches.last, ok_bind, reject_false hport, ok_bind]
    exact congrArg Except.ok (hrender _ _)

/-- **The proxy makes an origin's own host and port into it.** -/
theorem authority_join (hhost : OriginHost lib host) (hport : validPort port = true) :
    authority lib (joinHostPort host port) https = .ok (render host port) := by
  obtain ⟨hne, hdigits⟩ := validPort_iff hport
  have hdigits := List.all_eq_true.mp hdigits
  have hsplit := split_join hhost hport
  have hname : (URL.ofHost (ascii "https") (host ++ colon :: port)).hostname = host := congrArg Prod.fst hsplit
  have hnumber : (URL.ofHost (ascii "https") (host ++ colon :: port)).port = port := congrArg Prod.snd hsplit
  have hport' : effectivePort (URL.ofHost (ascii "https") (host ++ colon :: port)) = port := by
    rw [effectivePort, hnumber, if_neg hne]
  rw [joinHostPort_of_plain hhost]
  refine authority_eq_ok.mpr ⟨_, ⟨lib.url.plain _ (plainHost_join hhost hport), ?_, ?_, ?_, ?_⟩, ?_⟩
  -- neither the host nor the digits of the port have a refused character
  · have hallowed : (host ++ colon :: port).any (refused.contains ·) = false := by
      rw [List.any_eq_false]
      intro c hc
      rw [Bool.not_eq_true]
      rcases List.mem_append.mp hc with hc | hc
      · exact (plain_cases (hhost.plain c hc)).2.2.2.2.2.1
      · rcases List.mem_cons.mp hc with rfl | hc
        · decide
        · exact (plain_cases (plain_of_digit (hdigits c hc))).2.2.2.2.2.1
    rintro (h | h | h | h | h | h)
    · cases h
    · exact h rfl
    · exact h rfl
    · exact h rfl
    · exact h rfl
    · rw [hallowed] at h
      cases h
  · rw [hname, hhost.toLower_eq, hhost.valid, parseAddr_of_valid hhost.valid]
    rintro (h | h)
    · cases h
    · cases h.2
  · rw [List.getLast?_append_cons, List.getLast?_cons, List.getLast?_eq_some_getLast hne]
    exact fun heq => (plain_cases (plain_of_digit (hdigits _ (List.getLast_mem hne)))).2.2.1 (Option.some.inj heq)
  · rw [hport']
    exact hport
  · rw [hname, hhost.toLower_eq, hport']

/-- An IPv4 address has no colon. -/
theorem colon_notMem_of_parseAddr4 (h : (Network.parseAddr4 s).isSome = true) : colon ∉ s := by
  unfold Network.parseAddr4 at h
  split at h
  · next a b c d hparts =>
    obtain ⟨htexts, -⟩ := Network.renderNat_mapM hparts
    intro hmem
    rcases mem_labels hmem with heq | ⟨l, hl, hcl⟩
    · exact absurd heq (by decide)
    · unfold Network.labels at hl
      rw [← htexts] at hl
      obtain ⟨n, -, rfl⟩ := List.mem_map.mp hl
      exact absurd (Json.isDigit_of_mem_renderNat hcl) (by decide)
  · cases h

theorem Reaches.colon_notMem {value : Bytes} (h : Reaches lib value u) : colon ∉ toLower lib.lower u.hostname := by
  have hhost := h.host
  cases haddr : parseAddr lib (toLower lib.lower u.hostname) with
  | none =>
    have hvalid : validOriginHostname lib (toLower lib.lower u.hostname) = true :=
      Bool.eq_true_of_not_eq_false fun hfalse => hhost (.inr ⟨haddr, hfalse⟩)
    intro hmem
    exact (plain_cases (List.all_eq_true.mp (plain_of_valid hvalid).2 _ hmem)).2.2.1 rfl
  | some is4 =>
    cases is4 with
    | false => exact absurd (.inl haddr) hhost
    | true =>
      unfold parseAddr at haddr
      split at haddr
      · next hsome => exact colon_notMem_of_parseAddr4 hsome
      · split at haddr <;> cases haddr

/-- **A connection reaches the origin of the name it asks for.** -/
theorem reaches_join {sni : Bytes} (hport : port ≠ [] ∧ port.all Json.isDigit = true)
    (h : Reaches lib (joinHostPort sni port) u) : u.hostname = sni ∧ effectivePort u = port := by
  have hexact := h.exact_value
  push Not at hexact
  have hhost : u.host = joinHostPort sni port := hexact.2.1
  -- a host in brackets has a colon, and no host with a colon is accepted
  have hbrackets : (joinHostPort sni port).head? ≠ some openBracket := by
    intro hhead
    have hcolon := lib.url.brackets h.parsed (hhost ▸ hhead)
    exact h.colon_notMem (lowerLetter_mem_toLower lib.lower hcolon (by decide))
  by_cases hspecial : colon ∈ sni
  · rw [joinHostPort, if_pos hspecial] at hbrackets
    exact absurd rfl hbrackets
  · have hjoin : joinHostPort sni port = sni ++ colon :: port := by
      rw [joinHostPort, if_neg hspecial, List.append_assoc]
      rfl
    have hsni : sni.head? ≠ some openBracket := by
      intro hhead
      rw [hjoin, List.head?_append, hhead] at hbrackets
      exact hbrackets rfl
    have hsplit : splitHostPort u.host = (sni, port) := by
      rw [hhost, hjoin, splitHostPort_append hport.2, unbracket_of_head hsni]
    refine ⟨congrArg Prod.fst hsplit, ?_⟩
    rw [effectivePort, URL.port, hsplit, if_neg hport.1]

/-! ## The result -/

/-- Hosts that are equal up to the case of ASCII letters are ASCII together. -/
theorem CaseEq.ascii {a b : Bytes} (h : CaseEq a b) (hb : IsAscii b) : IsAscii a := by
  rw [← ascii_asciiLower, h, ascii_asciiLower]
  exact hb

/-- **Origins name one host and port, as far as hosts are ASCII.** Every origin is its own, and the proxy's for its
host and port. A text and the ASCII ones have the same origin for the same host and port exactly if its host is
ASCII, and a name that a connection asks for reaches an origin of its own host exactly if the name is. -/
theorem origins_name_one_host_iff (lib : Libraries) :
    (∀ raw o, canonicalOrigin lib raw = .ok o → canonicalOrigin lib o = .ok o ∧
      ∃ u, lib.url.parse o = some u ∧ authority lib (joinHostPort u.hostname (effectivePort u)) https = .ok o) ∧
    (∀ raw o u, canonicalOrigin lib raw = .ok o → lib.url.parse raw = some u →
      ((∀ raw' o' u', canonicalOrigin lib raw' = .ok o' → lib.url.parse raw' = some u' → IsAscii u'.hostname →
        (o = o' ↔ CaseEq u.hostname u'.hostname ∧ effectivePort u = effectivePort u')) ↔ IsAscii u.hostname)) ∧
    ∀ raw o u sni port, canonicalOrigin lib raw = .ok o → lib.url.parse o = some u →
      authority lib (joinHostPort sni (Json.renderNat port)) https = .ok o →
      ((CaseEq sni u.hostname ∧ Json.renderNat port = effectivePort u) ↔ IsAscii sni) := by
  refine ⟨fun raw o h => ?_, fun raw o u h hparse => ?_, fun raw o u sni port h hparse hauthority => ?_⟩
  · obtain ⟨u, haccepts, rfl⟩ := canonicalOrigin_eq_ok.mp h
    obtain ⟨u', haccepts', hhost, hport⟩ := accepts_render haccepts.host haccepts.validPort
    refine ⟨canonicalOrigin_eq_ok.mpr ⟨u', haccepts', ?_⟩, u', haccepts'.parsed, ?_⟩
    · rw [hhost, hport, haccepts.host.toLower_eq]
    · rw [hhost, hport]
      exact authority_join haccepts.host haccepts.validPort
  · obtain ⟨u₀, haccepts, rfl⟩ := canonicalOrigin_eq_ok.mp h
    obtain rfl : u₀ = u := Option.some.inj (haccepts.parsed.symm.trans hparse)
    constructor
    · -- the origin itself is a text with the same origin and an ASCII host
      intro hsame
      obtain ⟨u', haccepts', hhost, hport⟩ := accepts_render haccepts.host haccepts.validPort
      have hown : canonicalOrigin lib (render (toLower lib.lower u₀.hostname) (effectivePort u₀)) =
          .ok (render (toLower lib.lower u₀.hostname) (effectivePort u₀)) :=
        canonicalOrigin_eq_ok.mpr ⟨u', haccepts', by rw [hhost, hport, haccepts.host.toLower_eq]⟩
      have hascii : IsAscii u'.hostname := hhost ▸ haccepts.host.ascii
      exact ((hsame _ _ u' hown haccepts'.parsed hascii).mp rfl).1.ascii hascii
    · intro hascii raw' o' u' h' hparse' hascii'
      obtain ⟨u₁, haccepts', rfl⟩ := canonicalOrigin_eq_ok.mp h'
      obtain rfl : u₁ = u' := Option.some.inj (haccepts'.parsed.symm.trans hparse')
      rw [toLower_of_ascii lib.lower hascii, toLower_of_ascii lib.lower hascii']
      constructor
      · intro heq
        have hhost := haccepts.host.colon_notMem
        have hhost' := haccepts'.host.colon_notMem
        rw [toLower_of_ascii lib.lower hascii] at hhost
        rw [toLower_of_ascii lib.lower hascii'] at hhost'
        exact render_inj hhost hhost' (validPort_iff haccepts.validPort).2 (validPort_iff haccepts'.validPort).2 heq
      · rintro ⟨hhost, hport⟩
        rw [show asciiLower u₀.hostname = asciiLower u₁.hostname from hhost, hport]
  · obtain ⟨u₀, haccepts, rfl⟩ := canonicalOrigin_eq_ok.mp h
    obtain ⟨u', haccepts', hhost, hport⟩ := accepts_render haccepts.host haccepts.validPort
    obtain rfl : u' = u := Option.some.inj (haccepts'.parsed.symm.trans hparse)
    obtain ⟨u₁, hreaches, hrender⟩ := authority_eq_ok.mp hauthority
    have hdigits : (Json.renderNat port).all Json.isDigit = true :=
      List.all_eq_true.mpr fun c hc => Json.isDigit_of_mem_renderNat hc
    obtain ⟨hsni, hnumber⟩ := reaches_join ⟨Json.renderNat_ne_nil port, hdigits⟩ hreaches
    obtain ⟨hlower, hsame⟩ := render_inj haccepts.host.colon_notMem hreaches.colon_notMem
      (validPort_iff haccepts.validPort).2 (validPort_iff hreaches.port).2 hrender
    rw [hsni] at hlower
    rw [hnumber] at hsame
    rw [hhost, hport]
    constructor
    · exact fun hnames => hnames.1.ascii haccepts.host.ascii
    · intro hascii
      rw [toLower_of_ascii lib.lower hascii] at hlower
      refine ⟨?_, hsame.symm⟩
      rw [CaseEq, haccepts.host.asciiLower_eq]
      exact hlower.symm

/-! ## The Kelvin sign -/

/-- What a host may have in it. -/
def isHostByte (c : UInt8) : Bool := !(ascii "/?#@[]\\% ").contains c

theorem isHostByte_of_plain (h : isPlain c = true) : isHostByte c = true := by
  revert h
  exact forall_octet c (by decide +kernel)

/-- Texts with a scheme and a host and nothing else. -/
def hostsOnly : Splitter where
  parse raw :=
    if ascii "https://" <+: raw ∧ (raw.drop 8).all isHostByte = true then
      some (URL.ofHost (ascii "https") (raw.drop 8))
    else none
  plain host hplain := by
    have hchars : host.all isHostByte = true := by
      obtain ⟨name, -, hname, hhost⟩ := hplain
      have hname := List.all_eq_true.mp hname
      refine List.all_eq_true.mpr fun c hc => ?_
      rcases hhost with rfl | ⟨port, -, hport, rfl⟩
      · exact isHostByte_of_plain (hname c hc)
      · rcases List.mem_append.mp hc with hc | hc
        · exact isHostByte_of_plain (hname c hc)
        · rcases List.mem_cons.mp hc with rfl | hc
          · decide
          · exact isHostByte_of_plain (plain_of_digit (List.all_eq_true.mp hport c hc))
    exact if_pos ⟨List.prefix_append _ _, hchars⟩
  brackets := by
    intro raw u h hhead
    split at h
    · next hraw =>
      cases h
      have hbracket := List.all_eq_true.mp hraw.2 _ (List.mem_of_mem_head? hhead)
      exact absurd hbracket (by decide)
    · cases h

/-- Lower case of ASCII letters, the Kelvin sign and the dotted I. -/
def someLetters : Lowering where
  rune r := if r = 0x212A then 0x6B else if r = 0x0130 then 0x69 else if 65 ≤ r ∧ r ≤ 90 then r + 32 else r
  ascii r hr := by
    rw [if_neg (by omega), if_neg (by omega)]
  kelvin := rfl
  dotted := rfl

def plainLibraries : Libraries := ⟨hostsOnly, someLetters, fun _ => false, nofun⟩

/-- `K.example` with the Kelvin sign. -/
def kelvinHost : Bytes := [0xE2, 0x84, 0xAA] ++ ascii ".example"

theorem kelvin_sign_is_mistaken :
    canonicalOrigin plainLibraries (ascii "https://" ++ kelvinHost) = .ok (ascii "https://k.example") ∧
    canonicalOrigin plainLibraries (ascii "https://k.example") = .ok (ascii "https://k.example") ∧
    ¬CaseEq kelvinHost (ascii "k.example") ∧
    authority plainLibraries (joinHostPort kelvinHost (Json.renderNat 443)) https = .ok (ascii "https://k.example") := by
  refine ⟨by decide +kernel, by decide +kernel, by decide, by decide +kernel⟩

end Helmr.Secret
