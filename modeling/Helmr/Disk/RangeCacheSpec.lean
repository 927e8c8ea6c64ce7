import Mathlib.Algebra.Order.BigOperators.Group.List
import Helmr.Disk.RangeCache
import Helmr.Lib.FiniteMap
import Helmr.Lib.Runs

/-!
# Disk — the range cache is transparent and bounded

Calls are in flight while they fetch, so the same range can be fetched and stored twice at once. The steps
of the system are the critical sections. `Cache.Inv` ties the map to the recency list and the two counters
to the capacities of the elements; it does not depend on the order of the list. That the scan for a window
finds one follows from it: with no window left the counter is zero, and a single window fits.

* `Call.covers`, `Covers.limited_read`, `Call.passed`: a range holds what its caller asked for;
* `Cache.Inv.find`, `.remove`, `.evictWindows`, `.evict`, `.pushFront`, `.store`: each operation keeps the invariant
  and does not crash;
* `Inv.step`: one step, and from it `cache_transparent_and_bounded` about whole runs.
-/

namespace Helmr.Disk.RangeCache

open Wire Fallible FiniteMap Runs

/-! ## The system -/

inductive Kind where
  | range
  | segment
  | pack
  deriving DecidableEq, Repr

structure Call where
  kind : Kind
  digest : Bytes
  size : Int
  offset : Int
  length : Int
  deriving DecidableEq, Repr

def Call.access (call : Call) : Except RangeError Access :=
  match call.kind with
  | .range => .ok (getRange call.digest call.size call.offset call.length)
  | .segment => getSegmentRange call.digest call.size call.offset call.length
  | .pack => getPackRange call.digest call.size call.offset call.length

/-- The source: an immutable content for every digest. -/
abbrev Source := Bytes → Content

/-- What the source returns for a range. -/
def Source.read (source : Source) (key : RangeKey) : Bytes :=
  window (source key.digest) key.offset.toNat key.length.toNat

/-- What a caller reads of the octets of a range. -/
def limited (data : Bytes) (skip take : Int) : Bytes := slice data skip.toNat take.toNat

/-- A capacity `io.ReadAll` may leave a buffer of `n` octets with: it starts at 512 and grows by less than
twofold. -/
def Capacity (n cap : Nat) : Prop := cap ≤ max 512 (2 * n)

structure State where
  cache : Cache
  fetching : List Call

inductive Label where
  | answered (call : Call) (result : Except RangeError Bytes)
  | crashed
  | other

/-- A context that is done makes a call fail at its start, after a hit and after a fetch. -/
inductive Step (source : Source) (s : State) : Label → State → Prop
  | cancelled {call : Call} : Step source s (.answered call (.error .cancelled)) s
  | refused {call : Call} {e : RangeError} (h : call.access = .error e) :
      Step source s (.answered call (.error e)) s
  | passed {call : Call} {key : RangeKey} {skip take : Int} (h : call.access = .ok (.source key skip take)) :
      Step source s (.answered call (.ok (limited (source.read key) skip take))) s
  | hit {call : Call} {key : RangeKey} {w : Bool} {skip take : Int} {data : Bytes} {c : Cache}
      {result : Except RangeError Bytes} (h : call.access = .ok (.cached key w skip take))
      (hfind : s.cache.find key = .ok (some data, c))
      (hresult : result = .ok (limited data skip take) ∨ result = .error .cancelled) :
      Step source s (.answered call result) { s with cache := c }
  | missed {call : Call} {key : RangeKey} {w : Bool} {skip take : Int} {c : Cache}
      (h : call.access = .ok (.cached key w skip take)) (hfind : s.cache.find key = .ok (none, c)) :
      Step source s .other ⟨c, call :: s.fetching⟩
  | findCrashed {call : Call} {key : RangeKey} {w : Bool} {skip take : Int} {e : Crash}
      (h : call.access = .ok (.cached key w skip take)) (hfind : s.cache.find key = .error e) :
      Step source s .crashed s
  /-- The source failed a call, passed on or in flight. -/
  | failed {call : Call} {e : RangeError} :
      Step source s (.answered call (.error e)) { s with fetching := s.fetching.erase call }
  | stored {call : Call} {key : RangeKey} {w : Bool} {skip take : Int} {cap : Nat} {c : Cache}
      {result : Except RangeError Bytes} (hcall : call ∈ s.fetching)
      (h : call.access = .ok (.cached key w skip take)) (hcap : Capacity (source.read key).length cap)
      (hstore : s.cache.store key (source.read key) cap w = .ok c)
      (hresult : result = .ok (limited (source.read key) skip take) ∨ result = .error .cancelled) :
      Step source s (.answered call result) ⟨c, s.fetching.erase call⟩
  | storeCrashed {call : Call} {key : RangeKey} {w : Bool} {skip take : Int} {cap : Nat} {e : Crash}
      (hcall : call ∈ s.fetching) (h : call.access = .ok (.cached key w skip take))
      (hcap : Capacity (source.read key).length cap)
      (hstore : s.cache.store key (source.read key) cap w = .error e) : Step source s .crashed s
  | cleared : Step source s .other { s with cache := s.cache.clear }

/-! ## Ranges -/

structure RangeKey.Valid (key : RangeKey) : Prop where
  offset : 0 ≤ key.offset
  length : 0 < key.length
  size : key.offset + key.length ≤ key.size
  small : key.length ≤ 4 <<< 20

theorem length_read (source : Source) (key : RangeKey) : (source.read key).length = key.length.toNat :=
  length_window _ _ _

/-- A range that goes through the cache, and what its caller reads of it. -/
structure Covers (call : Call) (key : RangeKey) (w : Bool) (skip take : Int) : Prop where
  valid : key.Valid
  window : w = true → key.length ≤ 1 <<< 20
  digest : key.digest = call.digest
  skip_nonneg : 0 ≤ skip
  take_pos : 0 < take
  offset : key.offset + skip = call.offset
  length : take = call.length
  fits : skip + take ≤ key.length

variable {source : Source} {call : Call} {key : RangeKey} {w : Bool} {skip take : Int} {c c' : Cache}

theorem getRange_cached {digest : Bytes} {size offset length : Int}
    (h : getRange digest size offset length = .cached key w skip take) :
    key = ⟨digest, size, offset, length⟩ ∧ w = false ∧ skip = 0 ∧ take = length ∧ key.Valid := by
  unfold getRange at h
  split at h
  · cases h
  · next hcond =>
    cases h
    refine ⟨rfl, rfl, rfl, rfl, ?_, ?_, ?_, ?_⟩ <;> simp only <;> omega

theorem covers_of_getRange (h : getRange call.digest call.size call.offset call.length
    = .cached key w skip take) : Covers call key w skip take := by
  obtain ⟨rfl, rfl, rfl, rfl, hvalid⟩ := getRange_cached h
  exact ⟨hvalid, nofun, rfl, le_rfl, hvalid.length, Int.add_zero _, rfl, by simp⟩

theorem covers_of_getSegmentRange (h : getSegmentRange call.digest call.size call.offset call.length
    = .ok (.cached key w skip take)) : Covers call key w skip take := by
  simp only [getSegmentRange, bind_eq_ok, reject_eq_ok] at h
  obtain ⟨_, hrange, h⟩ := h
  split at h
  · exact covers_of_getRange (pure_eq_ok.mp h)
  · split at h
    · exact covers_of_getRange (pure_eq_ok.mp h)
    · next hlarge hfits =>
      cases pure_eq_ok.mp h
      -- the window starts at the multiple of its size below the offset
      have hstart := Int.ediv_mul_le call.offset (show segmentReadWindowBytes ≠ 0 by decide)
      have hnonneg : 0 ≤ call.offset / segmentReadWindowBytes * segmentReadWindowBytes :=
        mul_nonneg (Int.ediv_nonneg (by omega) (by decide)) (by decide)
      have hwindow : segmentReadWindowBytes = 1 <<< 20 := rfl
      generalize call.offset / segmentReadWindowBytes * segmentReadWindowBytes = start at *
      refine ⟨⟨hnonneg, ?_, ?_, ?_⟩, fun _ => ?_, rfl, ?_, ?_, ?_, rfl, ?_⟩ <;> (try simp only) <;> omega

theorem covers_of_getPackRange (h : getPackRange call.digest call.size call.offset call.length
    = .ok (.cached key w skip take)) : Covers call key w skip take := by
  simp only [getPackRange, bind_eq_ok, reject_eq_ok] at h
  obtain ⟨_, hrange, h⟩ := h
  have h := pure_eq_ok.mp h
  cases haccess : getRange call.digest call.size 0 call.size with
  | source key' skip' take' =>
    rw [haccess] at h
    cases h
  | cached key' w' skip' take' =>
    rw [haccess] at h
    cases h
    obtain ⟨rfl, rfl, _, _, hvalid⟩ := getRange_cached haccess
    refine ⟨hvalid, nofun, rfl, ?_, ?_, ?_, rfl, ?_⟩ <;> (try simp only) <;> omega

theorem Call.covers (h : call.access = .ok (.cached key w skip take)) : Covers call key w skip take := by
  unfold Call.access at h
  split at h
  · exact covers_of_getRange (Except.ok.inj h)
  · exact covers_of_getSegmentRange h
  · exact covers_of_getPackRange h

/-- What a caller reads of a range is what it asked for. -/
theorem Covers.limited_read (h : Covers call key w skip take) :
    limited (source.read key) skip take
      = Wire.window (source call.digest) call.offset.toNat call.length.toNat := by
  have hskip := h.skip_nonneg
  have hoffset := h.valid.offset
  have hsum := h.offset
  have hfits := h.fits
  have hlength := h.valid.length
  have htake := h.take_pos
  rw [limited, Source.read, slice_window (by omega), h.digest, ← h.length]
  congr 1
  omega

/-- A request that is passed on asks the source for what it was asked for. -/
theorem Call.passed (h : call.access = .ok (.source key skip take)) :
    limited (source.read key) skip take
      = window (source call.digest) call.offset.toNat call.length.toNat := by
  have hpassed (h : getRange call.digest call.size call.offset call.length = .source key skip take) :
      limited (source.read key) skip take
        = window (source call.digest) call.offset.toNat call.length.toNat := by
    unfold getRange at h
    split at h
    · cases h
      rw [limited, Source.read, slice_window (by simp)]
      rfl
    · cases h
  unfold Call.access at h
  split at h
  · exact hpassed (Except.ok.inj h)
  · simp only [getSegmentRange, bind_eq_ok] at h
    obtain ⟨_, _, h⟩ := h
    split at h
    · exact hpassed (pure_eq_ok.mp h)
    · split at h
      · exact hpassed (pure_eq_ok.mp h)
      · cases h
  · -- a pack is small enough for the cache
    simp only [getPackRange, bind_eq_ok, reject_eq_ok] at h
    obtain ⟨_, hrange, h⟩ := h
    have hcached : getRange call.digest call.size 0 call.size
        = .cached ⟨call.digest, call.size, 0, call.size⟩ false 0 call.size := by
      rw [getRange, if_neg (by omega)]
    rw [hcached] at h
    cases h

/-! ## The invariant -/

/-- The map and the list hold the same elements, and the counters are their capacities. -/
structure Cache.Inv (source : Source) (c : Cache) : Prop where
  entries : ∀ key address, c.entries.lookup key = some address ↔
    ∃ e ∈ c.recent, e.address = address ∧ e.key = key
  addresses : (c.recent.map Element.address).Nodup
  fresh : ∀ e ∈ c.recent, e.address < c.next
  bytes : c.bytes = (c.recent.map fun e => (e.cap : Int)).sum
  windowBytes : c.windowBytes = ((c.recent.filter fun e => e.window).map fun e => (e.cap : Int)).sum
  bytes_le : c.bytes ≤ versionReadCacheBytes
  windowBytes_le : c.windowBytes ≤ segmentReadCacheBytes
  count_le : c.entries.entries.length ≤ versionReadCacheEntries
  data : ∀ e ∈ c.recent, e.key.Valid ∧ e.data = source.read e.key

theorem Cache.Inv.empty (source : Source) (next : Nat) : Cache.Inv source ⟨∅, [], 0, 0, next⟩ where
  entries key address := by simp
  addresses := List.nodup_nil
  fresh e he := absurd he List.not_mem_nil
  bytes := rfl
  windowBytes := rfl
  bytes_le := show 0 ≤ versionReadCacheBytes by decide
  windowBytes_le := show 0 ≤ segmentReadCacheBytes by decide
  count_le := Nat.zero_le _
  data e he := absurd he List.not_mem_nil

theorem Cache.Inv.moveToFront (h : c.Inv source) (address : Nat) : (c.moveToFront address).Inv source := by
  have hperm : (c.moveToFront address).recent.Perm c.recent := Recency.toFront_perm h.addresses
  refine ⟨fun key a => ?_, ?_, fun e he => h.fresh e (hperm.mem_iff.mp he), ?_, ?_, h.bytes_le,
    h.windowBytes_le, h.count_le, fun e he => h.data e (hperm.mem_iff.mp he)⟩
  · simp only [hperm.mem_iff]
    exact h.entries key a
  · exact (hperm.map _).nodup_iff.mpr h.addresses
  · exact h.bytes.trans (hperm.map _).sum_eq.symm
  · exact h.windowBytes.trans ((hperm.filter _).map _).sum_eq.symm

/-! ## Lookups -/

theorem Cache.Inv.element (h : c.Inv source) {address : Nat} (hentry : c.entries.lookup key = some address) :
    ∃ e, c.element address = .ok e ∧ e.key = key ∧ key.Valid ∧ e.data = source.read key := by
  obtain ⟨e, he, rfl, rfl⟩ := (h.entries key address).mp hentry
  obtain ⟨hvalid, hdata⟩ := h.data e he
  exact ⟨e, by rw [Cache.element, Recency.find?_eq_some h.addresses he]; rfl, rfl, hvalid, hdata⟩

/-- A lookup delivers the octets of the range or nothing, and does not crash. -/
theorem Cache.Inv.find (h : c.Inv source) (hkey : key.Valid) :
    ∃ found c', c.find key = .ok (found, c') ∧ c'.Inv source ∧ ∀ data ∈ found, data = source.read key := by
  obtain ⟨hoff, hpos, hsize, -⟩ := hkey
  unfold Cache.find
  split
  · -- the full pack is there
    next address hfull =>
    obtain ⟨e, helement, _, _, hdata⟩ := h.element hfull
    have hlen : (e.data.length : Int) = key.size := by
      rw [hdata, length_read]
      exact Int.toNat_of_nonneg (show 0 ≤ key.size by omega)
    have hbounds : ¬¬(0 ≤ key.offset ∧ 0 ≤ key.length ∧ key.offset + key.length ≤ e.data.length) := by
      rw [hlen]
      omega
    rw [helement, ok_bind, reject_false hbounds, ok_bind]
    refine ⟨_, _, rfl, h.moveToFront address, fun data hfound => ?_⟩
    cases hfound
    rw [hdata, Source.read, Source.read, slice_window (by simp only; omega)]
    simp
  · split
    · next address hentry =>
      obtain ⟨e, helement, _, _, hdata⟩ := h.element hentry
      rw [helement, ok_bind]
      refine ⟨_, _, rfl, h.moveToFront address, fun data hfound => ?_⟩
      cases hfound
      exact hdata
    · exact ⟨none, c, rfl, h, fun data hfound => absurd hfound (by simp)⟩

/-! ## Eviction -/

theorem Cache.Inv.key_inj (h : c.Inv source) {e e' : Element} (he : e ∈ c.recent) (he' : e' ∈ c.recent)
    (hkey : e.key = e'.key) : e = e' := by
  have hentry := (h.entries e.key e.address).mpr ⟨e, he, rfl, rfl⟩
  rw [hkey, (h.entries e'.key e'.address).mpr ⟨e', he', rfl, rfl⟩] at hentry
  exact List.inj_on_of_nodup_map h.addresses he he' (Option.some.inj hentry).symm

/-- What removing an element leaves. -/
structure Removed (source : Source) (c c' : Cache) : Prop where
  inv : c'.Inv source
  length : c'.recent.length < c.recent.length
  windowBytes : c'.windowBytes ≤ c.windowBytes
  missing : ∀ key, c.entries.lookup key = none → c'.entries.lookup key = none

/-- An element goes from the list and from the map, and its capacity from the counters. -/
theorem Cache.Inv.remove (h : c.Inv source) {e : Element} (he : e ∈ c.recent) :
    Removed source c (c.remove e) := by
  have hperm : c.recent.Perm (e :: (c.remove e).recent) := Recency.perm_cons h.addresses he
  have hmem (e' : Element) : e' ∈ (c.remove e).recent ↔ e' ∈ c.recent ∧ e'.address ≠ e.address := by
    simp [Cache.remove, Recency.without]
  have hbytes : c.bytes = e.cap + ((c.remove e).recent.map fun e => (e.cap : Int)).sum := by
    rw [h.bytes, (hperm.map _).sum_eq, List.map_cons, List.sum_cons]
  have hwindow : c.windowBytes = (if e.window then (e.cap : Int) else 0)
      + (((c.remove e).recent.filter fun e => e.window).map fun e => (e.cap : Int)).sum := by
    rw [h.windowBytes, ((hperm.filter _).map _).sum_eq]
    cases hw : e.window <;> simp [hw]
  have hcount : (c.remove e).entries.entries.length ≤ c.entries.entries.length :=
    (List.kerase_sublist _ _).length_le
  have hbytes' : (c.remove e).bytes = c.bytes - e.cap := rfl
  have hwindow' : (c.remove e).windowBytes = if e.window then c.windowBytes - e.cap else c.windowBytes := rfl
  refine ⟨⟨fun key a => ?_, ?_, fun e' he' => h.fresh e' ((hmem e').mp he').1, by omega, ?_, ?_, ?_,
    hcount.trans h.count_le, fun e' he' => h.data e' ((hmem e').mp he').1⟩, ?_, ?_, fun key hnone => ?_⟩
  · show (c.entries.erase e.key).lookup key = some a ↔ _
    rw [lookup_erase_eq_some, h.entries]
    constructor
    · rintro ⟨hne, e', he', rfl, rfl⟩
      refine ⟨e', (hmem e').mpr ⟨he', fun haddress => hne ?_⟩, rfl, rfl⟩
      -- addresses tell the elements of the list apart
      rw [List.inj_on_of_nodup_map h.addresses he' he haddress]
    · rintro ⟨e', he', rfl, rfl⟩
      obtain ⟨he', hne⟩ := (hmem e').mp he'
      exact ⟨fun hkey => hne (by rw [h.key_inj he' he hkey]), e', he', rfl, rfl⟩
  · exact h.addresses.sublist (List.filter_sublist.map _)
  · rw [hwindow']
    split <;> simp_all
  · have hle := h.bytes_le
    omega
  · have hle := h.windowBytes_le
    rw [hwindow']
    split <;> omega
  · rw [hperm.length_eq]
    exact Nat.lt_succ_self _
  · rw [hwindow']
    split <;> omega
  · show (c.entries.erase e.key).lookup key = none
    by_cases hk : key = e.key
    · rw [hk]
      exact AList.lookup_erase _ _
    · rw [AList.lookup_erase_ne hk]
      exact hnone

/-- The scan finds a window as long as one more does not fit. -/
theorem Cache.Inv.evictWindows {cap : Nat} (hcap : (cap : Int) ≤ segmentReadCacheBytes) :
    ∀ (fuel : Nat) (c : Cache), c.Inv source → c.recent.length < fuel →
      ∃ c', c.evictWindows cap fuel = .ok c' ∧ c'.Inv source ∧ c'.windowBytes + cap ≤ segmentReadCacheBytes
        ∧ ∀ key, c.entries.lookup key = none → c'.entries.lookup key = none := by
  intro fuel
  induction fuel with
  | zero => exact fun c _ hfuel => absurd hfuel (Nat.not_lt_zero _)
  | succ fuel ih =>
    intro c h hfuel
    rw [Cache.evictWindows]
    split
    · next hfull =>
      split
      · next e he =>
        have hmem : e ∈ c.recent := List.mem_reverse.mp (List.mem_of_find?_eq_some he)
        have hremoved := h.remove hmem
        obtain ⟨c', heq, hinv, hfits, hmissing⟩ := ih (c.remove e) hremoved.inv
          (by have := hremoved.length; omega)
        exact ⟨c', heq, hinv, hfits, fun key hkey => hmissing key (hremoved.missing key hkey)⟩
      · -- without a window the counter is zero
        next hnone =>
        have hempty : (c.recent.filter fun e => e.window) = [] := by
          rw [List.filter_eq_nil_iff]
          intro e he
          exact List.find?_eq_none.mp hnone e (List.mem_reverse.mpr he)
        have hzero : c.windowBytes = 0 := by
          rw [h.windowBytes, hempty]
          rfl
        omega
    · exact ⟨c, rfl, h, by omega, fun key hkey => hkey⟩

/-- Both budgets are met before anything is added. -/
theorem Cache.Inv.evict {cap : Nat} (hcap : (cap : Int) ≤ versionReadCacheBytes) :
    ∀ (fuel : Nat) (c : Cache), c.Inv source → c.recent.length < fuel →
      ∃ c', c.evict cap fuel = .ok c' ∧ c'.Inv source ∧ c'.bytes + cap ≤ versionReadCacheBytes
        ∧ c'.entries.entries.length < versionReadCacheEntries ∧ c'.windowBytes ≤ c.windowBytes
        ∧ ∀ key, c.entries.lookup key = none → c'.entries.lookup key = none := by
  intro fuel
  induction fuel with
  | zero => exact fun c _ hfuel => absurd hfuel (Nat.not_lt_zero _)
  | succ fuel ih =>
    intro c h hfuel
    rw [Cache.evict]
    split
    · next hfull =>
      split
      · next e he =>
        have hremoved := h.remove (List.mem_of_getLast? he)
        obtain ⟨c', heq, hinv, hbytes, hcount, hwindow, hmissing⟩ := ih (c.remove e) hremoved.inv
          (by have := hremoved.length; omega)
        exact ⟨c', heq, hinv, hbytes, hcount, hwindow.trans hremoved.windowBytes,
          fun key hkey => hmissing key (hremoved.missing key hkey)⟩
      · -- an empty list has nothing in the map either
        next hnone =>
        have hempty : c.recent = [] := List.getLast?_eq_none_iff.mp hnone
        have hzero : c.bytes = 0 := by
          rw [h.bytes, hempty]
          rfl
        have hentries : c.entries.entries = [] := by
          refine List.eq_nil_iff_forall_not_mem.mpr fun entry hentry => ?_
          have hlookup : c.entries.lookup entry.1 = some entry.2 := AList.mem_lookup_iff.mpr hentry
          obtain ⟨e, he, _⟩ := (h.entries _ _).mp hlookup
          rw [hempty] at he
          cases he
        rw [hentries, hzero] at hfull
        simp [versionReadCacheEntries] at hfull
        omega
    · next hroom => exact ⟨c, rfl, h, by omega, by omega, le_rfl, fun key hkey => hkey⟩

/-! ## Storing -/

/-- A new element fits into both budgets. -/
theorem Cache.Inv.pushFront {cap : Nat} (h : c.Inv source) (hkey : key.Valid)
    (hnew : c.entries.lookup key = none) (hbytes : c.bytes + cap ≤ versionReadCacheBytes)
    (hcount : c.entries.entries.length < versionReadCacheEntries)
    (hwindow : w = true → c.windowBytes + cap ≤ segmentReadCacheBytes) :
    (c.pushFront key (source.read key) cap w).Inv source := by
  refine ⟨fun k a => ?_, ?_, fun e he => ?_, ?_, ?_, hbytes, ?_, ?_, fun e he => ?_⟩
  · show (c.entries.insert key c.next).lookup k = some a ↔ _
    rw [lookup_insert_eq_some, h.entries]
    constructor
    · rintro (⟨rfl, rfl⟩ | ⟨_, e, he, hrest⟩)
      · exact ⟨_, List.mem_cons_self, rfl, rfl⟩
      · exact ⟨e, List.mem_cons_of_mem _ he, hrest⟩
    · rintro ⟨e, he, rfl, rfl⟩
      rcases List.mem_cons.mp he with rfl | he
      · exact .inl ⟨rfl, rfl⟩
      · refine .inr ⟨fun heq => ?_, e, he, rfl, rfl⟩
        rw [← heq, (h.entries e.key e.address).mpr ⟨e, he, rfl, rfl⟩] at hnew
        cases hnew
  · refine List.nodup_cons.mpr ⟨fun hmem => ?_, h.addresses⟩
    obtain ⟨e, he, heq⟩ := List.mem_map.mp hmem
    have hlt := h.fresh e he
    simp only at heq
    omega
  · rcases List.mem_cons.mp he with rfl | he
    · exact Nat.lt_succ_self _
    · exact (h.fresh e he).trans (Nat.lt_succ_self _)
  · show c.bytes + cap = _
    rw [h.bytes, Cache.pushFront, List.map_cons, List.sum_cons, add_comm]
  · show (if w then c.windowBytes + cap else c.windowBytes) = _
    cases w with
    | true => simp [Cache.pushFront, h.windowBytes, add_comm]
    | false => simp [Cache.pushFront, h.windowBytes]
  · show (if w then c.windowBytes + cap else c.windowBytes) ≤ _
    cases w with
    | true => simpa using hwindow rfl
    | false => simpa using h.windowBytes_le
  · show (c.entries.insert key c.next).entries.length ≤ _
    rw [AList.entries_insert_of_notMem (AList.lookup_eq_none.mp hnew)]
    exact hcount
  · rcases List.mem_cons.mp he with rfl | he
    · exact ⟨hkey, rfl⟩
    · exact h.data e he

/-- A range is stored without running off the list. -/
theorem Cache.Inv.store {cap : Nat} (h : c.Inv source) (hkey : key.Valid)
    (hwindow : w = true → key.length ≤ 1 <<< 20) (hcap : Capacity (source.read key).length cap) :
    ∃ c', c.store key (source.read key) cap w = .ok c' ∧ c'.Inv source := by
  rw [Capacity, length_read] at hcap
  have hsmall : key.length ≤ 4194304 := hkey.small
  have hcap8 : (cap : Int) ≤ versionReadCacheBytes := by
    show (cap : Int) ≤ 8388608
    omega
  unfold Cache.store
  split
  · exact ⟨c, rfl, h⟩
  · next hnew =>
    have hroom : ∃ c₁, c.makeRoom cap w = .ok c₁ ∧ c₁.Inv source
        ∧ (w = true → c₁.windowBytes + cap ≤ segmentReadCacheBytes)
        ∧ ∀ key, c.entries.lookup key = none → c₁.entries.lookup key = none := by
      cases w with
      | false => exact ⟨c, rfl, h, nofun, fun _ hkey => hkey⟩
      | true =>
        have hcap4 : (cap : Int) ≤ segmentReadCacheBytes := by
          have hlen : key.length ≤ 1048576 := hwindow rfl
          show (cap : Int) ≤ 4194304
          omega
        obtain ⟨c₁, heq, hinv, hfits, hmissing⟩ := Cache.Inv.evictWindows hcap4 _ c h (Nat.lt_succ_self _)
        exact ⟨c₁, heq, hinv, fun _ => hfits, hmissing⟩
    obtain ⟨c₁, heq₁, h₁, hfits, hmissing₁⟩ := hroom
    obtain ⟨c₂, heq₂, h₂, hbytes, hcount, hwindow₂, hmissing₂⟩ :=
      Cache.Inv.evict hcap8 _ c₁ h₁ (Nat.lt_succ_self _)
    rw [heq₁, ok_bind, heq₂, ok_bind]
    refine ⟨_, rfl, h₂.pushFront hkey (hmissing₂ key (hmissing₁ key hnew)) hbytes hcount fun hw => ?_⟩
    have hfits := hfits hw
    omega

/-! ## Runs -/

structure Inv (source : Source) (trace : List Label) (s : State) : Prop where
  cache : s.cache.Inv source
  answers : ∀ call data, Label.answered call (.ok data) ∈ trace →
    data = window (source call.digest) call.offset.toNat call.length.toNat
  crashes : Label.crashed ∉ trace

/-- **One step of one caller.** -/
theorem Inv.step {trace : List Label} {s s' : State} {l : Label} (h : Inv source trace s)
    (hstep : Step source s l s') : Inv source (trace ++ [l]) s' := by
  -- what remains is the cache, the answer and that there is no crash
  have hnext (hcache : s'.cache.Inv source) (hcrash : l ≠ .crashed)
      (hanswer : ∀ call data, l = .answered call (.ok data) →
        data = window (source call.digest) call.offset.toNat call.length.toNat) :
      Inv source (trace ++ [l]) s' := by
    refine ⟨hcache, fun call data hmem => ?_, fun hmem => ?_⟩
    · rcases List.mem_append.mp hmem with hmem | hmem
      · exact h.answers call data hmem
      · exact hanswer call data (List.mem_singleton.mp hmem).symm
    · rcases List.mem_append.mp hmem with hmem | hmem
      · exact h.crashes hmem
      · exact hcrash (List.mem_singleton.mp hmem).symm
  cases hstep with
  | cancelled => exact hnext h.cache nofun nofun
  | refused _ => exact hnext h.cache nofun nofun
  | passed haccess =>
    refine hnext h.cache nofun fun call data heq => ?_
    cases heq
    exact Call.passed haccess
  | hit haccess hfind hresult =>
    have hcovers := Call.covers haccess
    obtain ⟨found, c', hfind', hinv, hdata⟩ := h.cache.find hcovers.valid
    cases hfind'.symm.trans hfind
    refine hnext hinv nofun fun call data heq => ?_
    cases heq
    rcases hresult with hresult | hresult
    · cases hresult
      rw [hdata _ rfl]
      exact hcovers.limited_read
    · cases hresult
  | missed haccess hfind =>
    obtain ⟨found, c', hfind', hinv, _⟩ := h.cache.find (Call.covers haccess).valid
    cases hfind'.symm.trans hfind
    exact hnext hinv nofun nofun
  | findCrashed haccess hfind =>
    obtain ⟨found, c', hfind', _⟩ := h.cache.find (Call.covers haccess).valid
    cases hfind'.symm.trans hfind
  | failed => exact hnext h.cache nofun nofun
  | stored _ haccess hcap hstore hresult =>
    have hcovers := Call.covers haccess
    obtain ⟨c', hstore', hinv⟩ := h.cache.store hcovers.valid hcovers.window hcap
    cases hstore'.symm.trans hstore
    refine hnext hinv nofun fun call data heq => ?_
    cases heq
    rcases hresult with hresult | hresult
    · cases hresult
      exact hcovers.limited_read
    · cases hresult
  | storeCrashed _ haccess hcap hstore =>
    have hcovers := Call.covers haccess
    obtain ⟨c', hstore', _⟩ := h.cache.store hcovers.valid hcovers.window hcap
    cases hstore'.symm.trans hstore
  | cleared => exact hnext (.empty source _) nofun nofun

/-- **The cache is transparent and bounded.** In every run of overlapping calls on an immutable source
each successful call yields the octets it asked for, and nothing crashes. The map and the recency list
hold the same elements, the counters are the capacities of all elements and of the windows, and they and
the number of entries are within their limits. -/
theorem cache_transparent_and_bounded {trace : List Label} {s : State}
    (h : Run (Step source) ⟨newVersionRangeCache, []⟩ trace s) :
    (∀ call data, Label.answered call (.ok data) ∈ trace →
        data = window (source call.digest) call.offset.toNat call.length.toNat)
      ∧ Label.crashed ∉ trace
      ∧ (∀ key address, s.cache.entries.lookup key = some address ↔
          ∃ e ∈ s.cache.recent, e.address = address ∧ e.key = key)
      ∧ (s.cache.recent.map Element.address).Nodup ∧ (s.cache.recent.map Element.key).Nodup
      ∧ s.cache.bytes = (s.cache.recent.map fun e => (e.cap : Int)).sum
      ∧ s.cache.windowBytes = ((s.cache.recent.filter fun e => e.window).map fun e => (e.cap : Int)).sum
      ∧ s.cache.bytes ≤ 8 * 2 ^ 20 ∧ s.cache.windowBytes ≤ 4 * 2 ^ 20
      ∧ s.cache.entries.entries.length ≤ 4096 := by
  have hinv := Run.along (Inv source) (fun _ _ _ _ => Inv.step)
    ⟨.empty source 0, fun _ _ hmem => absurd hmem List.not_mem_nil, List.not_mem_nil⟩ h
  have hcache := hinv.cache
  refine ⟨hinv.answers, hinv.crashes, hcache.entries, hcache.addresses, ?_, hcache.bytes, hcache.windowBytes,
    hcache.bytes_le, hcache.windowBytes_le, hcache.count_le⟩
  exact List.Nodup.map_on (fun e he e' he' => hcache.key_inj he he') hcache.addresses.of_map

namespace Demo

def zeros : Source := fun _ _ => 0

def pack : Call := ⟨.pack, [1], 16, 4, 8⟩

/-- The pack of `pack` after it was fetched into a buffer of 512 octets. -/
def after : Cache := newVersionRangeCache.pushFront ⟨[1], 16, 0, 16⟩ (zeros.read ⟨[1], 16, 0, 16⟩) 512 false

theorem fetched : Run (Step zeros) ⟨newVersionRangeCache, []⟩
    [.other, .answered pack (.ok (List.replicate 8 0))] ⟨after, []⟩ := by
  have haccess : pack.access = .ok (.cached ⟨[1], 16, 0, 16⟩ false 4 8) := by decide +kernel
  have hmissed : Run (Step zeros) ⟨newVersionRangeCache, []⟩ ([] ++ [.other])
      ⟨newVersionRangeCache, [pack]⟩ := .snoc .nil (.missed haccess rfl)
  refine .snoc hmissed (.stored (by simp) haccess (show 512 ≤ max 512 _ from le_max_left _ _) rfl (.inl ?_))
  decide +kernel

end Demo

theorem cache_transparent_and_bounded_demo :
    Demo.after.bytes = 512 ∧ Demo.after.bytes ≤ 8 * 2 ^ 20
      ∧ List.replicate 8 0 = window (Demo.zeros [1]) 4 8 := by
  have h := cache_transparent_and_bounded Demo.fetched
  exact ⟨rfl, h.2.2.2.2.2.2.2.1, h.1 Demo.pack _ (by simp)⟩

end Helmr.Disk.RangeCache
