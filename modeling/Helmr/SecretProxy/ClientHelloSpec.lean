import Helmr.SecretProxy.ClientHello
import Helmr.Network.PolicySpec

/-!
# Secret proxy — what an accepted ClientHello binds

`Hello` is the message as its format has it: strings after their lengths, an extension for each type and value.
A body that `parseClientHello` accepts is such a message, byte for byte (`parseClientHello_eq_ok`, with
`serverName_eq_ok` and `parseExtensions_eq_ok` for its parts), and the message is unique (`Hello.encode_inj`), so
the host that is returned is the one that a server reads from the same bytes. The records are the bytes taken from
the connection, and the handshake is their bodies put together (`Reading.step`, `inspection_of_reading`). The `tame_`
lemmas say that nothing panics and no loop runs out of rounds.
-/

namespace Helmr.SecretProxy

open Wire Fallible Network

variable {ε : Type}

/-! ## The format -/

@[ext] structure Extension where
  kind : Nat
  value : Bytes
  kind_lt : kind < 65536
  value_lt : value.length < 65536

def Extension.encode (e : Extension) : Bytes := beBytes 2 e.kind ++ vec 2 e.value

@[ext] structure Hello where
  /-- The version and the random bytes. -/
  fixed : Bytes
  session : Bytes
  ciphers : Bytes
  compression : Bytes
  extensions : List Extension
  fixed_length : fixed.length = 34
  session_le : session.length ≤ 32
  ciphers_length : 2 ≤ ciphers.length ∧ ciphers.length % 2 = 0 ∧ ciphers.length < 65536
  compression_length : 1 ≤ compression.length ∧ compression.length < 256
  extensions_lt : (extensions.flatMap Extension.encode).length < 65536

def Hello.encode (hello : Hello) : Bytes :=
  hello.fixed ++ (vec 1 hello.session ++ (vec 2 hello.ciphers ++ (vec 1 hello.compression ++
    vec 2 (hello.extensions.flatMap Extension.encode))))

/-- An entry of a `server_name` extension: type 0 is a host name. -/
@[ext] structure ServerName where
  kind : UInt8
  name : Bytes
  name_lt : name.length < 65536

def ServerName.encode (n : ServerName) : Bytes := n.kind :: vec 2 n.name

/-- The extension of type 0 carries a list of names. -/
def Hello.Carries (hello : Hello) (names : List ServerName) : Prop :=
  (names.flatMap ServerName.encode).length < 65536 ∧
    ∃ e ∈ hello.extensions, e.kind = 0 ∧ e.value = vec 2 (names.flatMap ServerName.encode)

/-! ### Each byte string is one message -/

theorem Extension.encode_delimited (a b : Extension) (x y : Bytes) (h : a.encode ++ x = b.encode ++ y) :
    a = b ∧ x = y := by
  unfold Extension.encode at h
  rw [List.append_assoc, List.append_assoc] at h
  obtain ⟨hkind, hrest⟩ := List.append_inj h (by rw [length_beBytes, length_beBytes])
  have heq := congrArg beNat hkind
  rw [beNat_beBytes a.kind_lt, beNat_beBytes b.kind_lt] at heq
  obtain ⟨hvalue, htail⟩ := vec_append_inj a.value_lt b.value_lt hrest
  exact ⟨Extension.ext heq hvalue, htail⟩

theorem ServerName.encode_delimited (a b : ServerName) (x y : Bytes) (h : a.encode ++ x = b.encode ++ y) :
    a = b ∧ x = y := by
  unfold ServerName.encode at h
  rw [List.cons_append, List.cons_append, List.cons_eq_cons] at h
  obtain ⟨hname, htail⟩ := vec_append_inj a.name_lt b.name_lt h.2
  exact ⟨ServerName.ext h.1 hname, htail⟩

theorem Hello.encode_inj {a b : Hello} (h : a.encode = b.encode) : a = b := by
  unfold Hello.encode at h
  obtain ⟨hfixed, h⟩ := List.append_inj h (by rw [a.fixed_length, b.fixed_length])
  have hs := a.session_le
  have hs' := b.session_le
  obtain ⟨hsession, h⟩ := vec_append_inj (by omega) (by omega) h
  obtain ⟨hciphers, h⟩ := vec_append_inj a.ciphers_length.2.2 b.ciphers_length.2.2 h
  obtain ⟨hcompression, h⟩ := vec_append_inj a.compression_length.2 b.compression_length.2 h
  rw [← List.append_nil (vec 2 _), ← List.append_nil (vec 2 (b.extensions.flatMap _))] at h
  obtain ⟨hextensions, -⟩ := vec_append_inj a.extensions_lt b.extensions_lt h
  have hlist := flatMap_inj_of_delimited (fun e => by simp [Extension.encode, vec, beBytes])
    Extension.encode_delimited hextensions
  exact Hello.ext hfixed hsession hciphers hcompression hlist

/-! ## Reading the body -/

/-- The errors that stand for a panic and for a loop that does not end. -/
def HelloError.Fault : HelloError ε → Prop
  | .outOfRange | .outOfRounds => True
  | _ => False

/-- A call that neither panics nor runs out of rounds. -/
abbrev Tame {α : Type} (x : Parse ε α) : Prop := Avoids HelloError.Fault x

variable {body rest : Slice} {k : Int} {host : Bytes} {rounds : Nat} {header handshake : Bytes} {reader : Reader ε}
  {pos : Nat} {records : Bytes}

/-- What `take` returns is nil, or the beginning of the body. -/
def Takes (body : Slice) (n : Int) (v rest : Slice) : Prop :=
  v = none ∧ rest = none ∨ ∃ x y, body = some (x ++ y) ∧ (x.length : Int) = n ∧ v = some x ∧ rest = some y

theorem exists_take (body : Slice) (n : Int) :
    ∃ v rest, (take body n : Parse ε _) = .ok (v, rest) ∧ Takes body n v rest := by
  unfold take
  split
  · exact ⟨none, none, rfl, .inl ⟨rfl, rfl⟩⟩
  · next hn =>
    rw [Slice.upTo, Slice.startingAt, reject_false hn]
    refine ⟨_, _, rfl, ?_⟩
    cases body with
    | none => exact .inl ⟨rfl, rfl⟩
    | some b =>
      have hle : n.toNat ≤ b.length := by
        have : ¬((b.length : Int) < n) := fun hlt => hn (.inr hlt)
        omega
      refine .inr ⟨b.take n.toNat, b.drop n.toNat, by rw [List.take_append_drop], ?_, rfl, rfl⟩
      rw [List.length_take, Nat.min_eq_left hle]
      omega

theorem take_eq_ok {v : Slice} {n : Int} (h : (take body n : Parse ε _) = .ok (v, rest)) :
    Takes body n v rest := by
  obtain ⟨_, _, heq, htakes⟩ := exists_take (ε := ε) body n
  cases h.symm.trans heq
  exact htakes

theorem tame_take (body : Slice) (n : Int) : Tame (take body n : Parse ε _) := by
  obtain ⟨_, _, heq, -⟩ := exists_take (ε := ε) body n
  exact heq ▸ .ok _

/-- What a read of a number of the width returns is -1, or the number at the beginning of the body. -/
def Reads (width : Nat) (body : Slice) (k : Int) (rest : Slice) : Prop :=
  k = -1 ∨ ∃ (n : Nat) (y : Bytes), n < 256 ^ width ∧ k = n ∧ body = some (beBytes width n ++ y) ∧ rest = some y

theorem exists_read8 (body : Slice) :
    ∃ k rest, (read8 body : Parse ε _) = .ok (k, rest) ∧ Reads 1 body k rest := by
  obtain ⟨v, rest, htake, htakes⟩ := exists_take (ε := ε) body 1
  rw [read8, htake, ok_bind]
  rcases htakes with ⟨rfl, rfl⟩ | ⟨x, y, rfl, hlength, rfl, rfl⟩
  · exact ⟨-1, none, rfl, .inl rfl⟩
  · obtain ⟨c, rfl⟩ := List.length_eq_one_iff.mp (show x.length = 1 by omega)
    exact ⟨c.toNat, some y, rfl, .inr ⟨c.toNat, y, by simpa using c.toNat_lt, rfl, by simp [beBytes], rfl⟩⟩

theorem exists_read16 (body : Slice) :
    ∃ k rest, (read16 body : Parse ε _) = .ok (k, rest) ∧ Reads 2 body k rest := by
  obtain ⟨v, rest, htake, htakes⟩ := exists_take (ε := ε) body 2
  rw [read16, htake, ok_bind]
  rcases htakes with ⟨rfl, rfl⟩ | ⟨x, y, rfl, hlength, rfl, rfl⟩
  · exact ⟨-1, none, rfl, .inl rfl⟩
  · obtain ⟨c, d, rfl⟩ := List.length_eq_two.mp (show x.length = 2 by omega)
    refine ⟨beNat [c, d], some y, rfl, .inr ⟨beNat [c, d], y, beNat_lt [c, d], rfl, ?_, rfl⟩⟩
    rw [show beBytes 2 (beNat [c, d]) = [c, d] from beBytes_beNat [c, d]]

theorem read8_eq_ok (h : (read8 body : Parse ε _) = .ok (k, rest)) : Reads 1 body k rest := by
  obtain ⟨_, _, heq, hreads⟩ := exists_read8 (ε := ε) body
  cases h.symm.trans heq
  exact hreads

theorem read16_eq_ok (h : (read16 body : Parse ε _) = .ok (k, rest)) : Reads 2 body k rest := by
  obtain ⟨_, _, heq, hreads⟩ := exists_read16 (ε := ε) body
  cases h.symm.trans heq
  exact hreads

theorem tame_read8 (body : Slice) : Tame (read8 body : Parse ε _) := by
  obtain ⟨_, _, heq, -⟩ := exists_read8 (ε := ε) body
  exact heq ▸ .ok _

theorem tame_read16 (body : Slice) : Tame (read16 body : Parse ε _) := by
  obtain ⟨_, _, heq, -⟩ := exists_read16 (ε := ε) body
  exact heq ▸ .ok _

theorem takeChecked_eq_ok {n : Int} {bad : Prop} [Decidable bad]
    (h : (takeChecked body n bad : Parse ε _) = .ok rest) :
    ¬bad ∧ ∃ x y, body = some (x ++ y) ∧ (x.length : Int) = n ∧ rest = some y := by
  obtain ⟨_, hbad, h⟩ := bind_eq_ok.mp h
  obtain ⟨⟨v, tail⟩, htake, h⟩ := bind_eq_ok.mp h
  obtain ⟨_, hv, h⟩ := bind_eq_ok.mp h
  cases h
  refine ⟨reject_eq_ok.mp hbad, ?_⟩
  rcases take_eq_ok htake with ⟨rfl, -⟩ | ⟨x, y, hbody, hlength, -, hrest⟩
  · exact absurd rfl (reject_eq_ok.mp hv)
  · exact ⟨x, y, hbody, hlength, hrest⟩

/-- A length that was read and as many bytes after it. -/
theorem exists_vec {width : Nat} {rest' : Slice} {bad : Prop} [Decidable bad]
    (hread : Reads width body k rest) (htake : (takeChecked rest k bad : Parse ε _) = .ok rest') :
    ¬bad ∧ ∃ x y, body = some (vec width x ++ y) ∧ x.length < 256 ^ width ∧ (x.length : Int) = k ∧
      rest' = some y := by
  obtain ⟨hbad, x, y, hrest, hlength, hrest'⟩ := takeChecked_eq_ok htake
  rcases hread with rfl | ⟨n, z, hn, rfl, hbody, hz⟩
  · omega
  · obtain rfl : n = x.length := by omega
    obtain rfl : x ++ y = z := Option.some.inj (hrest.symm.trans hz)
    refine ⟨hbad, x, y, ?_, hn, rfl, hrest'⟩
    rw [hbody, vec, List.append_assoc]

theorem tame_takeChecked (body : Slice) (n : Int) (bad : Prop) [Decidable bad] :
    Tame (takeChecked body n bad : Parse ε _) := by
  apply Avoids.guard id
  intro _
  apply (tame_take body n).bind
  intro _ _
  exact .guard id fun _ => .ok _

/-! ### The server name -/

/-- The value of an extension that carries one host name. -/
def hostValue (host : Bytes) : Bytes := vec 2 ((0 : UInt8) :: vec 2 host)

/-- What is required of a host name. -/
def HostName (host : Bytes) : Prop := normalizePattern host = .ok host ∧ host.head? ≠ some asterisk

/-- The value of an extension that is long enough. -/
theorem exists_value {v : Bytes} (h : ¬Slice.len (some v) < 5) :
    ∃ a b c d e rest, v = a :: b :: c :: d :: e :: rest := by
  match v with
  | a :: b :: c :: d :: e :: rest => exact ⟨a, b, c, d, e, rest, rfl⟩
  | [] | [_] | [_, _] | [_, _, _] | [_, _, _, _] => simp [Slice.len, Slice.bytes] at h

theorem serverName_cons (a b c d e : UInt8) (rest : Bytes) :
    (serverName (some (a :: b :: c :: d :: e :: rest)) : Parse ε _) = (do
      reject (beNat [a, b] ≠ rest.length + 3) .invalid
      reject (c ≠ 0) .invalid
      reject (beNat [d, e] ≠ rest.length) .invalid
      let normalized ← (normalizePattern rest).mapError fun _ => .invalid
      reject (normalized ≠ rest ∨ rest.head? = some asterisk) .invalid
      return normalized) := by
  have hlen : Slice.len (some (a :: b :: c :: d :: e :: rest)) = rest.length + 5 := rfl
  have hshort : ¬rest.length + 5 < 5 := by omega
  have hthree : ¬((3 : Int) < 0 ∨ ((rest.length + 5 : Nat) : Int) < 3) := by omega
  have hfive : ¬((5 : Int) < 0 ∨ ((rest.length + 5 : Nat) : Int) < 5) := by omega
  unfold serverName
  simp only [Slice.uint16, Slice.startingAt, hlen, reject_false hshort, reject_false hthree, reject_false hfive]
  rfl

theorem serverName_eq_ok {v : Bytes} (h : (serverName (some v) : Parse ε _) = .ok host) :
    v = hostValue host ∧ host.length < 65536 ∧ HostName host := by
  by_cases hshort : Slice.len (some v) < 5
  · rw [serverName, reject_true hshort] at h
    cases h
  · obtain ⟨a, b, c, d, e, rest, rfl⟩ := exists_value hshort
    rw [serverName_cons] at h
    obtain ⟨_, hlist, h⟩ := bind_eq_ok.mp h
    obtain ⟨_, hkind, h⟩ := bind_eq_ok.mp h
    obtain ⟨_, hlength, h⟩ := bind_eq_ok.mp h
    obtain ⟨normalized, hnormal, h⟩ := bind_eq_ok.mp h
    obtain ⟨_, hraw, h⟩ := bind_eq_ok.mp h
    obtain rfl := pure_eq_ok.mp h
    have hlist := not_not.mp (reject_eq_ok.mp hlist)
    have hlength := not_not.mp (reject_eq_ok.mp hlength)
    obtain rfl := not_not.mp (reject_eq_ok.mp hkind)
    have hraw := not_or.mp (reject_eq_ok.mp hraw)
    obtain rfl := not_not.mp hraw.1
    have hbound : beNat [d, e] < 65536 := (beNat_lt [d, e]).trans_eq (by simp)
    refine ⟨?_, hlength ▸ hbound, mapError_eq_ok.mp hnormal, hraw.2⟩
    have houter : beBytes 2 (normalized.length + 3) = [a, b] := hlist ▸ beBytes_beNat [a, b]
    have hinner : beBytes 2 normalized.length = [d, e] := hlength ▸ beBytes_beNat [d, e]
    rw [hostValue, vec, vec, List.length_cons, List.length_append, length_beBytes,
      show 2 + normalized.length + 1 = normalized.length + 3 by omega, houter, hinner]
    rfl

theorem tame_serverName {value : Slice} (h : value ≠ none) : Tame (serverName value : Parse ε _) := by
  obtain ⟨v, rfl⟩ := Option.ne_none_iff_exists'.mp h
  by_cases hshort : Slice.len (some v) < 5
  · rw [serverName, reject_true hshort]
    exact .error id
  · obtain ⟨a, b, c, d, e, rest, rfl⟩ := exists_value hshort
    rw [serverName_cons]
    refine .guard id fun _ => .guard id fun _ => .guard id fun _ => ?_
    exact (Avoids.mapError fun _ => id).bind fun _ _ => .guard id fun _ => .ok _

/-! ### The extensions -/

/-- What a round of the loop finds: an extension that is not there twice and not encrypted, and a host in the one
of type 0. -/
structure Round (b : Bytes) (seen : List Int) (host : Bytes) (e : Extension) (rest host' : Bytes) : Prop where
  split : b = e.encode ++ rest
  fresh : (e.kind : Int) ∉ seen
  plain : e.kind ≠ 0xfe0d
  other : e.kind ≠ 0 → host' = host
  named : e.kind = 0 → e.value = hostValue host' ∧ host'.length < 65536 ∧ HostName host'

/-- One extension is parsed, and the loop goes on behind it. -/
theorem parseExtensions_cons {b : Bytes} {seen : List Int} {found : Bytes} (hb : 0 < b.length)
    (h : (parseExtensions (rounds + 1) (some b) seen host : Parse ε _) = .ok found) :
    ∃ e rest host', Round b seen host e rest host' ∧
      (parseExtensions rounds (some rest) ((e.kind : Int) :: seen) host' : Parse ε _) = .ok found := by
  have hlen : Slice.len (some b) > 0 := hb
  rw [parseExtensions, if_pos hlen] at h
  obtain ⟨⟨kind, body₁⟩, hkind, h₁⟩ := bind_eq_ok.mp h
  obtain ⟨⟨length, body₂⟩, hlength, h₂⟩ := bind_eq_ok.mp h₁
  obtain ⟨⟨value, body₃⟩, hvalue, h₃⟩ := bind_eq_ok.mp h₂
  obtain ⟨_, hbad, h₄⟩ := bind_eq_ok.mp h₃
  obtain ⟨_, hplain, hloop⟩ := bind_eq_ok.mp h₄
  have hbad := reject_eq_ok.mp hbad
  push Not at hbad
  obtain ⟨hkindpos, hlengthpos, hsome, hfresh⟩ := hbad
  -- neither number is the -1 of a truncated body, so both were there
  rcases read16_eq_ok hkind with rfl | ⟨k, y, hk, rfl, hb', rfl⟩
  · omega
  rcases read16_eq_ok hlength with rfl | ⟨n, y', hn, rfl, hy, rfl⟩
  · omega
  rcases take_eq_ok hvalue with ⟨rfl, -⟩ | ⟨v, rest, hy', hv, rfl, rfl⟩
  · exact absurd rfl hsome
  obtain rfl := Option.some.inj hb'
  obtain rfl := Option.some.inj hy
  obtain rfl := Option.some.inj hy'
  obtain rfl : v.length = n := by omega
  have hcode : beBytes 2 k ++ (beBytes 2 v.length ++ (v ++ rest)) = beBytes 2 k ++ vec 2 v ++ rest := by
    rw [vec, List.append_assoc, List.append_assoc]
  have hne : k ≠ 0xfe0d := by
    rintro rfl
    exact reject_eq_ok.mp hplain rfl
  by_cases hzero : k = 0
  · rw [if_neg (by simp [hzero])] at hloop
    obtain ⟨host', hname, hloop⟩ := bind_eq_ok.mp hloop
    have hfound := serverName_eq_ok hname
    exact ⟨⟨k, v, hk, hn⟩, rest, host', ⟨hcode, hfresh, hne, fun h => absurd hzero h, fun _ => hfound⟩, hloop⟩
  · rw [if_pos (by exact_mod_cast hzero)] at hloop
    exact ⟨⟨k, v, hk, hn⟩, rest, host, ⟨hcode, hfresh, hne, fun _ => rfl, fun h => absurd h hzero⟩, hloop⟩

/-- **The extensions account for every byte.** -/
theorem parseExtensions_eq_ok {b : Bytes} {seen : List Int} {found : Bytes}
    (h : (parseExtensions rounds (some b) seen host : Parse ε _) = .ok found) :
    ∃ es : List Extension, b = es.flatMap Extension.encode ∧ (es.map Extension.kind).Nodup ∧
      (∀ e ∈ es, (e.kind : Int) ∉ seen) ∧ (∀ e ∈ es, e.kind ≠ 0xfe0d) ∧
      ((∀ e ∈ es, e.kind ≠ 0) → found = host) ∧
      ∀ e ∈ es, e.kind = 0 → e.value = hostValue found ∧ found.length < 65536 ∧ HostName found := by
  induction rounds generalizing b seen host with
  | zero =>
    rw [parseExtensions] at h
    split at h
    · cases h
    · next hlen =>
      cases h
      have hnil : b = [] := List.length_eq_zero_iff.mp (Nat.eq_zero_of_not_pos hlen)
      exact ⟨[], hnil, .nil, nofun, nofun, fun _ => rfl, nofun⟩
  | succ rounds ih =>
    by_cases hlen : 0 < b.length
    · obtain ⟨e, rest, host', hround, h⟩ := parseExtensions_cons hlen h
      obtain ⟨es, rfl, hnodup, hseen, hplain, hnone, hfound⟩ := ih h
      refine ⟨e :: es, hround.split, ?_, ?_, ?_, ?_, ?_⟩
      · refine List.nodup_cons.mpr ⟨fun hmem => ?_, hnodup⟩
        obtain ⟨e', he', heq⟩ := List.mem_map.mp hmem
        exact hseen e' he' (by rw [heq]; exact List.mem_cons_self)
      · exact List.forall_mem_cons.mpr
          ⟨hround.fresh, fun e' he' hmem => hseen e' he' (List.mem_cons_of_mem _ hmem)⟩
      · exact List.forall_mem_cons.mpr ⟨hround.plain, hplain⟩
      · intro hall
        obtain ⟨hother, hrest⟩ := List.forall_mem_cons.mp hall
        rw [hnone hrest, hround.other hother]
      · refine List.forall_mem_cons.mpr ⟨fun hzero => ?_, hfound⟩
        -- type 0 is seen now, so the rounds after this one keep its host
        have hkept : found = host' := hnone fun e' he' hzero' => hseen e' he' (by rw [hzero, hzero']; simp)
        rw [hkept]
        exact hround.named hzero
    · have hnil : b = [] := List.length_eq_zero_iff.mp (Nat.eq_zero_of_not_pos hlen)
      subst hnil
      cases h
      exact ⟨[], rfl, .nil, nofun, nofun, fun _ => rfl, nofun⟩

theorem length_read16 (h : (read16 body : Parse ε _) = .ok (k, rest)) (hk : k ≠ -1) :
    rest.len + 2 = body.len := by
  rcases read16_eq_ok h with rfl | ⟨n, y, -, -, rfl, rfl⟩
  · exact absurd rfl hk
  · show y.length + 2 = (beBytes 2 n ++ y).length
    rw [List.length_append, length_beBytes]
    omega

theorem tame_parseExtensions (hlen : body.len ≤ rounds) (seen : List Int) (host : Bytes) :
    Tame (parseExtensions rounds body seen host : Parse ε _) := by
  induction rounds generalizing body seen host with
  | zero =>
    rw [parseExtensions, if_neg (by omega)]
    exact .ok _
  | succ rounds ih =>
    rw [parseExtensions]
    split
    · refine (tame_read16 body).bind fun ⟨kind, body₁⟩ hkind => ?_
      refine (tame_read16 body₁).bind fun ⟨length, body₂⟩ hlength => ?_
      refine (tame_take body₂ length).bind fun ⟨value, body₃⟩ hvalue => ?_
      refine .guard id fun hbad => .guard id fun _ => ?_
      push Not at hbad
      have hshorter : body₃.len ≤ rounds := by
        have h₁ := length_read16 hkind (by omega)
        have h₂ := length_read16 hlength (by omega)
        rcases take_eq_ok hvalue with ⟨rfl, -⟩ | ⟨v, rest, rfl, -, -, rfl⟩
        · exact absurd rfl hbad.2.2.1
        · have h₃ : Slice.len (some (v ++ rest)) = v.length + Slice.len (some rest) := List.length_append
          omega
      split
      · exact ih hshorter _ _
      · exact (tame_serverName hbad.2.2.1).bind fun _ _ => ih hshorter _ _
    · exact .ok _

/-! ### The message -/

/-- **What an accepted message says**: its types are different and none is the encrypted one, it carries one name
and that is the host, and the host is a host name as policies have them. -/
structure Binds (hello : Hello) (host : Bytes) : Prop where
  nodup : (hello.extensions.map Extension.kind).Nodup
  plain : ∀ e ∈ hello.extensions, e.kind ≠ 0xfe0d
  carries : ∀ names, hello.Carries names ↔ ∃ h, names = [⟨0, host, h⟩]
  fixed_point : normalizePattern host = .ok host
  no_wildcard : isWild host = false

theorem HostName.not_wild (h : HostName host) : isWild host = false := by
  rw [Bool.eq_false_iff]
  intro hwild
  obtain ⟨rest, rfl⟩ := isWild_iff.mp hwild
  exact h.2 rfl

/-- The parts of an accepted body, up to the extensions. -/
theorem exists_parts {body : Bytes} (h : (parseClientHello body : Parse ε _) = .ok host) :
    ∃ fixed session ciphers compression extensions : Bytes,
      body = fixed ++ (vec 1 session ++ (vec 2 ciphers ++ (vec 1 compression ++ vec 2 extensions))) ∧
      fixed.length = 34 ∧ session.length ≤ 32 ∧
      (2 ≤ ciphers.length ∧ ciphers.length % 2 = 0 ∧ ciphers.length < 65536) ∧
      (1 ≤ compression.length ∧ compression.length < 256) ∧ extensions.length < 65536 ∧ host ≠ [] ∧
      (parseExtensions extensions.length (some extensions) [] [] : Parse ε _) = .ok host := by
  obtain ⟨b₀, hfixed, h₁⟩ := bind_eq_ok.mp h
  obtain ⟨⟨n₁, b₁⟩, hread₁, h₂⟩ := bind_eq_ok.mp h₁
  obtain ⟨b₂, htake₁, h₃⟩ := bind_eq_ok.mp h₂
  obtain ⟨⟨n₂, b₃⟩, hread₂, h₄⟩ := bind_eq_ok.mp h₃
  obtain ⟨b₄, htake₂, h₅⟩ := bind_eq_ok.mp h₄
  obtain ⟨⟨n₃, b₅⟩, hread₃, h₆⟩ := bind_eq_ok.mp h₅
  obtain ⟨b₆, htake₃, h₇⟩ := bind_eq_ok.mp h₆
  obtain ⟨⟨n₄, b₇⟩, hread₄, h₈⟩ := bind_eq_ok.mp h₇
  obtain ⟨_, htotal, h₉⟩ := bind_eq_ok.mp h₈
  obtain ⟨found, hloop, h₁₀⟩ := bind_eq_ok.mp h₉
  obtain ⟨_, hhost, hlast⟩ := bind_eq_ok.mp h₁₀
  clear h h₁ h₂ h₃ h₄ h₅ h₆ h₇ h₈ h₉ h₁₀
  obtain rfl := pure_eq_ok.mp hlast
  -- each vector is a length and as many octets, and the last one ends the body
  obtain ⟨-, fixed, y₀, hbody, hlength, rfl⟩ := takeChecked_eq_ok hfixed
  obtain ⟨hs, session, y₁, hy₀, -, hn₁, rfl⟩ := exists_vec (read8_eq_ok hread₁) htake₁
  obtain ⟨hc, ciphers, y₂, hy₁, hlt₂, hn₂, rfl⟩ := exists_vec (read16_eq_ok hread₂) htake₂
  obtain ⟨hm, compression, y₃, hy₂, hlt₃, hn₃, rfl⟩ := exists_vec (read8_eq_ok hread₃) htake₃
  have htotal := reject_eq_ok.mp htotal
  push Not at hs hc hm htotal
  rcases read16_eq_ok hread₄ with rfl | ⟨n, extensions, hlt₄, rfl, hy₃, rfl⟩
  · omega
  obtain rfl : n = extensions.length := by exact_mod_cast htotal.2
  refine ⟨fixed, session, ciphers, compression, extensions, ?_, by omega, by omega, ⟨by omega, by omega, hlt₂⟩,
    ⟨by omega, hlt₃⟩, hlt₄, reject_eq_ok.mp hhost, hloop⟩
  rw [Option.some.inj hbody, Option.some.inj hy₀, Option.some.inj hy₁, Option.some.inj hy₂, Option.some.inj hy₃]
  rfl

/-- The value of the extension is read in one way. -/
theorem hostValue_eq_iff (hlt : (hostValue host).length < 65536) {names : List ServerName}
    (hnames : (names.flatMap ServerName.encode).length < 65536) :
    hostValue host = vec 2 (names.flatMap ServerName.encode) ↔ ∃ h, names = [⟨0, host, h⟩] := by
  have hlength : (hostValue host).length = host.length + 5 := by
    rw [hostValue, length_vec, List.length_cons, length_vec]
    omega
  have hname : host.length < 65536 := by omega
  have hone : (0 : UInt8) :: vec 2 host = [(⟨0, host, hname⟩ : ServerName)].flatMap ServerName.encode := by
    simp [ServerName.encode]
  constructor
  · intro h
    rw [hostValue, ← List.append_nil (vec 2 _), ← List.append_nil (vec 2 (names.flatMap _))] at h
    have hinner : ((0 : UInt8) :: vec 2 host).length < 256 ^ 2 := by
      rw [List.length_cons, length_vec]
      omega
    obtain ⟨heq, -⟩ := vec_append_inj hinner hnames h
    rw [hone] at heq
    exact ⟨hname, (flatMap_inj_of_delimited (fun n => by simp [ServerName.encode]) ServerName.encode_delimited
      heq).symm⟩
  · rintro ⟨h, rfl⟩
    rw [hostValue, hone]

/-- **Every byte of an accepted body belongs to one message, and the host is the one it names.** -/
theorem parseClientHello_eq_ok {body : Bytes} (h : (parseClientHello body : Parse ε _) = .ok host) :
    ∃ hello : Hello, body = hello.encode ∧ Binds hello host := by
  obtain ⟨fixed, session, ciphers, compression, extensions, hbody, hfixed, hsession, hciphers, hcompression, hlt,
    hhost, hloop⟩ := exists_parts h
  obtain ⟨es, rfl, hnodup, -, hplain, hnone, hfound⟩ := parseExtensions_eq_ok hloop
  refine ⟨⟨fixed, session, ciphers, compression, es, hfixed, hsession, hciphers, hcompression, hlt⟩, hbody, ?_⟩
  -- without an extension of type 0 the host would be empty
  obtain ⟨e, he, hzero⟩ : ∃ e ∈ es, e.kind = 0 := by
    by_contra hno
    push Not at hno
    exact hhost (hnone hno)
  obtain ⟨hvalue, -, hname⟩ := hfound e he hzero
  have hvaluelt := hvalue ▸ e.value_lt
  refine ⟨hnodup, hplain, fun names => ⟨?_, ?_⟩, hname.1, hname.not_wild⟩
  · rintro ⟨hnames, e', he', hzero', hvalue'⟩
    rw [(hfound e' he' hzero').1] at hvalue'
    exact (hostValue_eq_iff hvaluelt hnames).mp hvalue'
  · rintro ⟨hlt', rfl⟩
    have hsmall : ([(⟨0, host, hlt'⟩ : ServerName)].flatMap ServerName.encode).length < 65536 := by
      rw [hostValue, length_vec] at hvaluelt
      simp only [List.flatMap_singleton, ServerName.encode]
      omega
    exact ⟨hsmall, e, he, hzero, hvalue.trans ((hostValue_eq_iff hvaluelt hsmall).mpr ⟨hlt', rfl⟩)⟩

theorem tame_parseClientHello (body : Bytes) : Tame (parseClientHello body : Parse ε _) := by
  refine (tame_takeChecked _ _ _).bind fun _ _ => ?_
  refine (tame_read8 _).bind fun _ _ => (tame_takeChecked _ _ _).bind fun _ _ => ?_
  refine (tame_read16 _).bind fun _ _ => (tame_takeChecked _ _ _).bind fun _ _ => ?_
  refine (tame_read8 _).bind fun _ _ => (tame_takeChecked _ _ _).bind fun _ _ => ?_
  refine (tame_read16 _).bind fun _ _ => .guard id fun _ => ?_
  exact (tame_parseExtensions (le_refl _) _ _).bind fun _ _ => .guard id fun _ => .ok _

/-! ## The records -/

/-- A handshake record of TLS, of any minor version up to 3. -/
structure Record where
  minor : UInt8
  body : Bytes
  minor_le : minor ≤ 3
  body_length : 0 < body.length ∧ body.length ≤ 16384

def Record.encode (record : Record) : Bytes := [22, 3, record.minor] ++ vec 2 record.body

/-- Records one after the other. -/
def wireOf (records : List Record) : Bytes := records.flatMap Record.encode

/-- The bodies put together. -/
def handshakeOf (records : List Record) : Bytes := records.flatMap Record.body

theorem recordSize_cons (length : Nat) (a b c d e : UInt8) :
    (recordSize length (some [a, b, c, d, e]) : Parse ε _) = (do
      reject (a ≠ 22 ∨ b ≠ 3 ∨ c > 3) .required
      reject (beNat [d, e] = 0 ∨ beNat [d, e] > 16384 ∨ length + 5 + beNat [d, e] > maxClientHelloBytes) .recordBound
      return beNat [d, e]) := rfl

theorem tame_recordSize (hlength : header.length = 5) (length : Nat) :
    Tame (recordSize length (some header) : Parse ε _) := by
  match header, hlength with
  | [a, b, c, d, e], _ =>
    rw [recordSize_cons]
    exact .guard id fun _ => .guard id fun _ => .ok _

/-- The header of a record and the size it gives. -/
theorem recordSize_eq_ok (hlength : header.length = 5) {length size : Nat}
    (h : (recordSize length (some header) : Parse ε _) = .ok size) :
    (∃ minor : UInt8, minor ≤ 3 ∧ header = [22, 3, minor] ++ beBytes 2 size) ∧ 0 < size ∧ size ≤ 16384 ∧
      length + 5 + size ≤ maxClientHelloBytes := by
  match header, hlength with
  | [a, b, c, d, e], _ =>
    rw [recordSize_cons] at h
    obtain ⟨_, hkind, h⟩ := bind_eq_ok.mp h
    obtain ⟨_, hsize, h⟩ := bind_eq_ok.mp h
    obtain rfl := pure_eq_ok.mp h
    have hkind := reject_eq_ok.mp hkind
    have hsize := reject_eq_ok.mp hsize
    push Not at hkind hsize
    obtain ⟨rfl, rfl, hminor⟩ := hkind
    refine ⟨⟨c, UInt8.not_lt.mp hminor, ?_⟩, Nat.pos_of_ne_zero hsize.1, hsize.2.1, hsize.2.2⟩
    rw [show beBytes 2 (beNat [d, e]) = [d, e] from beBytes_beNat [d, e]]
    rfl

theorem messageLength_cons (k x y z : UInt8) (rest : Bytes) :
    (messageLength (some (k :: x :: y :: z :: rest)) : Parse ε _) = (do
      reject (k ≠ 1 ∨ beNat [x, y, z] > maxClientHelloBytes - 4) .invalid
      return beNat [x, y, z]) := rfl

theorem exists_four (h : ¬handshake.length < 4) : ∃ k x y z rest, handshake = k :: x :: y :: z :: rest := by
  match handshake with
  | k :: x :: y :: z :: rest => exact ⟨k, x, y, z, rest, rfl⟩
  | [] | [_] | [_, _] | [_, _, _] => simp at h

/-- The four octets of a handshake header, and what follows. -/
theorem inspectMessage_cons (k x y z : UInt8) (rest : Bytes) :
    (inspectMessage (k :: x :: y :: z :: rest) : Parse ε _) = (do
      reject (k ≠ 1 ∨ beNat [x, y, z] > maxClientHelloBytes - 4) .invalid
      if rest.length < beNat [x, y, z] then return none
      else do
        let host ← parseClientHello (rest.take (beNat [x, y, z]))
        return some host) := by
  have hlong : ¬(k :: x :: y :: z :: rest).length < 4 := by
    simp only [List.length_cons]
    omega
  rw [inspectMessage, if_neg hlong, messageLength_cons]
  unfold reject
  split
  · rfl
  · simp only [ok_bind, pure_bind, List.length_cons]
    by_cases hshort : rest.length < beNat [x, y, z]
    · rw [if_pos (by omega), if_pos hshort]
    · rw [if_neg (by omega), if_neg hshort]
      have hupTo : (Slice.upTo (some (k :: x :: y :: z :: rest)) (4 + (beNat [x, y, z] : Nat)) :
          Parse ε Slice) = .ok (some (k :: x :: y :: z :: rest.take (beNat [x, y, z]))) := by
        have hlen : Slice.len (some (k :: x :: y :: z :: rest)) = rest.length + 4 := rfl
        have htake : (4 + (beNat [x, y, z] : Nat) : Int).toNat = beNat [x, y, z] + 4 := by omega
        rw [Slice.upTo, hlen, reject_false (by omega), htake]
        rfl
      have hbody : (Slice.startingAt (some (k :: x :: y :: z :: rest.take (beNat [x, y, z]))) 4 :
          Parse ε Slice) = .ok (some (rest.take (beNat [x, y, z]))) := by
        have hlen : Slice.len (some (k :: x :: y :: z :: rest.take (beNat [x, y, z]))) =
          (rest.take (beNat [x, y, z])).length + 4 := rfl
        rw [Slice.startingAt, hlen, reject_false (by omega)]
        rfl
      rw [hupTo, ok_bind, hbody, ok_bind]
      rfl

theorem tame_inspectMessage (handshake : Bytes) : Tame (inspectMessage handshake : Parse ε _) := by
  by_cases hshort : handshake.length < 4
  · rw [inspectMessage, if_pos hshort]
    exact .ok _
  · obtain ⟨k, x, y, z, rest, rfl⟩ := exists_four hshort
    rw [inspectMessage_cons]
    apply Avoids.guard id
    intro _
    split
    · exact .ok _
    · exact (tame_parseClientHello _).bind fun _ _ => .ok _

/-- A message that is complete begins what the bodies make together. -/
theorem inspectMessage_eq_some (h : (inspectMessage handshake : Parse ε _) = .ok (some host)) :
    ∃ (hello : Hello) (rest : Bytes), handshake = [1] ++ vec 3 hello.encode ++ rest ∧ Binds hello host := by
  by_cases hshort : handshake.length < 4
  · rw [inspectMessage, if_pos hshort] at h
    cases h
  · obtain ⟨k, x, y, z, rest, rfl⟩ := exists_four hshort
    rw [inspectMessage_cons] at h
    obtain ⟨_, hkind, h⟩ := bind_eq_ok.mp h
    have hkind := reject_eq_ok.mp hkind
    push Not at hkind
    split at h
    · cases h
    · next hlong =>
      obtain ⟨found, hparse, h⟩ := bind_eq_ok.mp h
      cases h
      obtain ⟨hello, hbody, hbinds⟩ := parseClientHello_eq_ok hparse
      refine ⟨hello, rest.drop (beNat [x, y, z]), ?_, hbinds⟩
      have hlength : (rest.take (beNat [x, y, z])).length = beNat [x, y, z] := by
        rw [List.length_take]
        omega
      rw [← hbody, vec, hlength, show beBytes 3 (beNat [x, y, z]) = [x, y, z] from beBytes_beNat [x, y, z], hkind.1,
        List.append_assoc, List.append_assoc, List.take_append_drop]
      rfl

/-! ## The loop -/

/-- What holds when a round begins: the records are what was taken from the connection. -/
structure Reading (reader : Reader ε) (pos : Nat) (records handshake : Bytes) : Prop where
  taken : reader.next 0 pos = some records
  whole : ∃ rs : List Record, records = wireOf rs ∧ handshake = handshakeOf rs
  bound : pos ≤ maxClientHelloBytes

theorem Reading.length_eq (h : Reading reader pos records handshake) :
    records.length = pos := Reader.length_next h.taken

/-- One record more. -/
theorem Reading.step {size : Nat} {body : Bytes} (h : Reading reader pos records handshake)
    (hheader : reader.readFull pos 5 = .ok header)
    (hsize : (recordSize records.length (some header) : Parse ε _) = .ok size)
    (hbody : reader.readFull (pos + 5) size = .ok body) :
    Reading reader (pos + 5 + size) (records ++ header ++ body) (handshake ++ body) := by
  have hheader := Reader.readFull_eq_ok.mp hheader
  have hbody := Reader.readFull_eq_ok.mp hbody
  obtain ⟨⟨minor, hminor, rfl⟩, hpos, hle, hbound⟩ := recordSize_eq_ok (Reader.length_next hheader) hsize
  have hlength : body.length = size := Reader.length_next hbody
  obtain ⟨rs, hrecords, hhandshake⟩ := h.whole
  refine ⟨?_, ⟨rs ++ [⟨minor, body, hminor, by omega⟩], ?_, ?_⟩, ?_⟩
  · refine Reader.next_add (Reader.next_add h.taken ?_) ?_
    · rw [Nat.zero_add]
      exact hheader
    · rw [Nat.zero_add]
      exact hbody
  · simp only [wireOf, List.flatMap_append, List.flatMap_singleton, Record.encode, vec, hrecords, hlength,
      List.append_assoc]
  · simp only [handshakeOf, List.flatMap_append, List.flatMap_singleton, hhandshake]
  · rw [h.length_eq] at hbound
    exact hbound

/-- What a call delivers. -/
structure Inspection (reader : Reader ε) (result : Inspected ε) : Prop where
  ends : result.err ≠ some .outOfRounds
  in_range : result.err ≠ some .outOfRange
  consumed_le : result.consumed ≤ maxClientHelloBytes + 5
  accepted : result.err = none → result.consumed = result.records.length ∧
    reader.next 0 result.consumed = some result.records ∧ result.records.length ≤ maxClientHelloBytes ∧
    ∃ (rs : List Record) (hello : Hello) (rest : Bytes), result.records = wireOf rs ∧
      handshakeOf rs = [1] ++ vec 3 hello.encode ++ rest ∧ Binds hello result.host

theorem Inspection.of_err {err : HelloError ε} {consumed : Nat} (herr : ¬err.Fault)
    (hle : consumed ≤ maxClientHelloBytes + 5) : Inspection reader ⟨host, records, some err, consumed⟩ where
  ends h := herr (Option.some.inj h ▸ trivial)
  in_range h := herr (Option.some.inj h ▸ trivial)
  consumed_le := hle
  accepted := nofun

/-- **The rounds from any point on.** Each takes at least six octets, so that the rounds suffice. -/
theorem inspection_of_reading (h : Reading reader pos records handshake)
    (hrounds : maxClientHelloBytes < 6 * rounds + pos) :
    Inspection reader (inspectRecords reader rounds pos records handshake) := by
  -- on the rounds: each takes a record of at least six bytes from the connection
  induction rounds generalizing pos records handshake with
  | zero =>
    have hbound := h.bound
    omega
  | succ rounds ih =>
    have hbound := h.bound
    rw [inspectRecords]
    split
    · next hmore =>
      split
      · next err hread =>
        exact .of_err id (by have := reader.drawn_le pos 5; omega)
      · next header hheader =>
        have hlength := Reader.length_next (Reader.readFull_eq_ok.mp hheader)
        split
        · next err hsize => exact .of_err (tame_recordSize hlength _ _ hsize) (by omega)
        · next size hsize =>
          have hsmall := (recordSize_eq_ok hlength hsize).2.2.2
          rw [h.length_eq] at hsmall
          split
          · next err hread =>
            exact .of_err id (by have := reader.drawn_le (pos + 5) size; omega)
          · next body hbody =>
            have hnext := h.step hheader hsize hbody
            dsimp only
            split
            · next err hmessage => exact .of_err (tame_inspectMessage _ _ hmessage) (by omega)
            · next host hmessage =>
              obtain ⟨hello, rest, hhello, hbinds⟩ := inspectMessage_eq_some hmessage
              obtain ⟨rs, hrecords, hhandshake⟩ := hnext.whole
              refine ⟨nofun, nofun, hnext.bound.trans (Nat.le_add_right _ 5), fun _ => ?_⟩
              have hwire := hnext.length_eq
              exact ⟨hwire.symm, hnext.taken, hwire.le.trans hnext.bound, rs, hello, rest, hrecords,
                hhandshake ▸ hhello, hbinds⟩
            · have hpos := (recordSize_eq_ok hlength hsize).2.1
              exact ih hnext (by omega)
    · exact .of_err id (by omega)

/-! ## The result -/

theorem Hello.length_encode_lt (hello : Hello) : hello.encode.length < 256 ^ 3 := by
  have hfixed := hello.fixed_length
  have hsession := hello.session_le
  have hciphers := hello.ciphers_length
  have hcompression := hello.compression_length
  have hextensions := hello.extensions_lt
  simp only [Hello.encode, List.length_append, length_vec]
  omega

/-- Whatever follows it, the first message of a handshake is one. -/
theorem message_inj {a b : Hello} {x y : Bytes} (h : [1] ++ vec 3 a.encode ++ x = [1] ++ vec 3 b.encode ++ y) :
    a = b := by
  rw [List.append_assoc, List.append_assoc] at h
  obtain ⟨-, hrest⟩ := List.append_inj h rfl
  exact Hello.encode_inj (vec_append_inj a.length_encode_lt b.length_encode_lt hrest).1

/-- Nothing was read yet. -/
theorem inspection (reader : Reader ε) : Inspection reader (inspectClientHello reader) :=
  inspection_of_reading ⟨rfl, ⟨[], rfl, rfl⟩, Nat.zero_le _⟩ (by decide)

/-- **Inspection is total and binding.** It takes at most the bound and a record header from a connection. Where
it succeeds, the records are what was taken, so with the rest they are the connection; their bodies begin with
one message, and the host is the only name in it. -/
theorem inspectClientHello_binds (reader : Reader ε) :
    let result := inspectClientHello reader
    (result.err ≠ some .outOfRounds ∧ result.consumed ≤ maxClientHelloBytes + 5) ∧
    (result.err = none →
      (result.records.length ≤ maxClientHelloBytes ∧ reader.next 0 result.consumed = some result.records) ∧
      (∀ i, (Reader.resumed result.records reader result.consumed).byte i = reader.byte i) ∧
      ∃ (rs : List Record) (hello : Hello) (rest : Bytes), result.records = wireOf rs ∧
        handshakeOf rs = [1] ++ vec 3 hello.encode ++ rest ∧ Binds hello result.host ∧
        ∀ hello' rest', handshakeOf rs = [1] ++ vec 3 hello'.encode ++ rest' → hello' = hello) ∧
    ∀ body : Bytes, (parseClientHello body : Parse ε Bytes) ≠ .error .outOfRange ∧
      ∀ host, (parseClientHello body : Parse ε Bytes) = .ok host →
        ∃ hello : Hello, body = hello.encode ∧ Binds hello host := by
  intro result
  have hall := inspection reader
  refine ⟨⟨hall.ends, hall.consumed_le⟩, fun hok => ?_, fun body => ?_⟩
  · obtain ⟨-, htaken, hbound, rs, hello, rest, hrecords, hmessage, hbinds⟩ := hall.accepted hok
    refine ⟨⟨hbound, htaken⟩, Reader.byte_resumed htaken, rs, hello, rest, hrecords, hmessage, hbinds, ?_⟩
    intro hello' rest' hmessage'
    exact message_inj (hmessage'.symm.trans hmessage)
  · exact ⟨fun h => tame_parseClientHello body _ h trivial, fun host hparse => parseClientHello_eq_ok hparse⟩

/-- A record of a ClientHello without a session for one host. -/
def plainHello (host : Bytes) : Bytes :=
  let extensions := beBytes 2 0 ++ vec 2 (hostValue host)
  let body := List.replicate 34 0 ++ vec 1 [] ++ vec 2 [0x13, 0x01] ++ vec 1 [0] ++ vec 2 extensions
  [22, 3, 1] ++ vec 2 ([1] ++ vec 3 body)

/-- The hello of one host, with a byte behind it that is left on the connection. -/
theorem inspectClientHello_binds_demo :
    let reader : Reader Empty := Reader.ofBytes (plainHello (ascii "a.b") ++ [23])
    (inspectClientHello reader).records = plainHello (ascii "a.b") ∧
      ∃ (rs : List Record) (hello : Hello) (rest : Bytes), plainHello (ascii "a.b") = wireOf rs ∧
        handshakeOf rs = [1] ++ vec 3 hello.encode ++ rest ∧ Binds hello (ascii "a.b") := by
  intro reader
  have hcheck : (inspectClientHello reader).err.isNone ∧ (inspectClientHello reader).host = ascii "a.b" ∧
      (inspectClientHello reader).records = plainHello (ascii "a.b") := by decide +kernel
  obtain ⟨hok, hhost, hrecords⟩ := hcheck
  obtain ⟨-, -, rs, hello, rest, hwire, hmessage, hbinds, -⟩ :=
    (inspectClientHello_binds reader).2.1 (Option.isNone_iff_eq_none.mp hok)
  exact ⟨hrecords, rs, hello, rest, hrecords.symm.trans hwire, hmessage, hhost ▸ hbinds⟩

/-- **What is relayed is what the guest sent**, to a host that the policy allows and that its ClientHello names. -/
theorem serveRestricted_replays {policy : Policy} {origins : List Bytes} {port : Nat} {client replay : Reader ε}
    (h : serveRestricted policy origins port client = .relay host replay ∨
      ∃ target, serveRestricted policy origins port client = .serveProtected host target replay) :
    policy.allowsHostname host = true ∧ (∀ i, replay.byte i = client.byte i) ∧
      ∃ (rs : List Record) (hello : Hello) (rest : Bytes), client.next 0 (wireOf rs).length = some (wireOf rs) ∧
        handshakeOf rs = [1] ++ vec 3 hello.encode ++ rest ∧ Binds hello host := by
  unfold serveRestricted at h
  split at h
  · rcases h with h | ⟨_, h⟩ <;> cases h
  dsimp only at h
  split at h
  · rcases h with h | ⟨_, h⟩ <;> cases h
  next herr =>
  split at h
  · rcases h with h | ⟨_, h⟩ <;> cases h
  next hallowed =>
  obtain ⟨hlength, htaken, -, rs, hello, rest, hrecords, hmessage, hbinds⟩ :=
    (inspection client).accepted (Option.not_isSome_iff_eq_none.mp herr)
  have hsame : host = (inspectClientHello client).host ∧
      replay = Reader.resumed (inspectClientHello client).records client (inspectClientHello client).consumed := by
    split at h
    · rcases h with h | ⟨_, h⟩ <;> cases h
      exact ⟨rfl, rfl⟩
    · rcases h with h | ⟨_, h⟩ <;> cases h
      exact ⟨rfl, rfl⟩
  obtain ⟨rfl, rfl⟩ := hsame
  rw [hlength, hrecords] at htaken
  exact ⟨Bool.not_eq_false _ |>.mp hallowed, Reader.byte_resumed (hlength ▸ hrecords ▸ htaken), rs, hello, rest,
    htaken, hmessage, hbinds⟩

end Helmr.SecretProxy
