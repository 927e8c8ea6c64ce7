import Helmr.BlockFormat.CaptureSpec

/-!
# Block format — versions are immutable block arrays

What the format is for: a locator names an array of blocks that never changes, `Empty` makes a zero
array, and `Capture` makes a new array out of an old one. `Reaches` are the runs of writers over one
store, with a history of the arrays their locators stand for; a writer may start from any array of
the history, and failed calls are part of a run. `Reaches.catalogs` is the induction over a run. Of a
cataloged version, `Catalogs.readsAs` says that it reads as its array and `Catalogs.pruned` that zeros
are holes of its tree; `capture_refines` puts both together for a capture.

Key ids pass through JSON, which replaces bytes that are not UTF-8. `capture_key_not_utf8` is a run
whose active key is no UTF-8 text: the capture succeeds and its version cannot be read.
-/

namespace Helmr.BlockFormat

open Wire Wire.Json Fallible Hoare

/-! ## Block arrays -/

structure BlockArray where
  capacity : Int
  content : Content

def BlockArray.zero (capacity : Int) : BlockArray := { capacity, content := fun _ => 0 }

/-- The array with whole blocks replaced. -/
def BlockArray.overwrite (a : BlockArray) (changes : Changes) : BlockArray :=
  { a with content := overlay changes a.content }

/-- Every in-bounds read of the version at `l` returns the array's bytes. -/
def ReadsAs (C : Crypto) (store : Store) (scope : Bytes) (keys : Keys) (l : Locator) (a : BlockArray) :
    Prop :=
  ∃ t, openTree C store.source scope keys l = .ok t ∧
    ∀ offset length : Int, 0 ≤ offset → 0 ≤ length → length ≤ maxReadBytes → offset + length ≤ a.capacity →
      t.readRange C offset length = .ok (window a.content offset.toNat length.toNat)

/-- Zeros are holes of the version at `l`: none of its nodes is without entries, and a block of zeros has none. -/
def Pruned (C : Crypto) (store : Store) (scope : Bytes) (keys : Keys) (l : Locator) (a : BlockArray) : Prop :=
  ∀ t, openTree C store.source scope keys l = .ok t →
    (∀ level start n, t.Visits C level start n → n.entries ≠ []) ∧ ∀ b, t.Stores C b → ¬Hole a.content b

/-! ## Runs -/

/-- The arrays of the locators returned so far, latest first. -/
abbrev History := List (Locator × BlockArray)

/-- A call that returned a locator adds its array; a failed one adds nothing. -/
def History.after (hist : History) (r : Result Locator) (a : BlockArray) : History :=
  match r with
  | .ok l => (l, a) :: hist
  | .error _ => hist

/-- The runs of writers with active keys in `ok`. -/
inductive Reaches (C : Crypto) (rand : Nat → Digest) (scope : Bytes) (keys : Keys) (ok : Bytes → Prop) :
    Staging → History → Prop
  | start : Reaches C rand scope keys ok { objects := [], drawn := 0 } []
  | empty {s s' : Staging} {hist : History} {r : Result Locator} (activeKey : Bytes)
      (packLimit capacity fanout : Int) (h : Reaches C rand scope keys ok s hist) (hkey : ok activeKey)
      (hrun : Act.from ((stagingWriter rand { scope, activeKey, keys, packLimit }).empty C capacity fanout)
        s = (r, s')) :
      Reaches C rand scope keys ok s' (hist.after r (.zero capacity))
  | capture {s s' : Staging} {hist : History} {r : Result Locator} (activeKey : Bytes)
      (packLimit capacity : Int) (base : Locator) (a : BlockArray) (changes : Changes)
      (h : Reaches C rand scope keys ok s hist) (hkey : ok activeKey) (hbase : (base, a) ∈ hist)
      (hrun : Act.from ((stagingWriter rand { scope, activeKey, keys, packLimit }).capture C base capacity
        changes) s = (r, s')) :
      Reaches C rand scope keys ok s' (hist.after r (a.overwrite changes))

variable {C : Crypto} {rand : Nat → Digest} {scope : Bytes} {keys : Keys}

/-- The catalog has every version of a history. -/
def Catalogs (C : Crypto) (scope : Bytes) (keys : Keys) (s : Staging) (hist : History) (K : Catalog) :
    Prop :=
  Staged C scope keys K s ∧
    ∀ v ∈ hist, ∃ shape, K.Version C v.1 shape v.2.content ∧ shape.capacity = v.2.capacity

/-- One call: its outcome extends the catalog and the history together. -/
theorem Catalogs.step {s s' : Staging} {hist : History} {K : Catalog} {r : Result Locator} {a : BlockArray}
    (h : Catalogs C scope keys s hist K)
    (hok : ∀ l, r = .ok l → ∃ (K' : Catalog) (shape : Root), K <+: K' ∧ Staged C scope keys K' s'
      ∧ K'.Version C l shape a.content ∧ shape.capacity = a.capacity)
    (herr : ∀ e, r = .error e → Grown C scope keys K s') :
    ∃ K', Catalogs C scope keys s' (hist.after r a) K' := by
  cases r with
  | error e =>
    obtain ⟨K', hK', hstaged⟩ := herr e rfl
    refine ⟨K', hstaged, fun v hv => ?_⟩
    obtain ⟨shape, hversion, hcap⟩ := h.2 v hv
    exact ⟨shape, hversion.mono hK'.subset, hcap⟩
  | ok l =>
    obtain ⟨K', new, hK', hstaged, hnew, hcap⟩ := hok l rfl
    refine ⟨K', hstaged, fun v hv => ?_⟩
    rcases List.mem_cons.mp hv with rfl | hv
    · exact ⟨new, hnew, hcap⟩
    · obtain ⟨shape, hversion, hcap⟩ := h.2 v hv
      exact ⟨shape, hversion.mono hK'.subset, hcap⟩

/-- **A run's history is cataloged.** -/
theorem Reaches.catalogs (hC : C.Lawful) {s : Staging} {hist : History}
    (h : Reaches C rand scope keys Utf8 s hist) (hfresh : (fresh rand).holds s) :
    ∃ K, Catalogs C scope keys s hist K := by
  induction h with
  | start => exact ⟨[], ⟨rfl, by intro item hitem; cases hitem⟩, by intro v hv; cases hv⟩
  | @empty s s' hist r activeKey packLimit capacity fanout h hkey hrun ih =>
    have hgrows := (grows_empty (A := fresh rand) C
      (stagingWriter rand { scope, activeKey, keys, packLimit }) capacity fanout).grows s
    rw [hrun] at hgrows
    obtain ⟨K, hK⟩ := ih ((fresh rand).earlier hgrows hfresh)
    have htriple := triple_empty (K := K) rand { scope, activeKey, keys, packLimit } hC hkey capacity fanout
    exact hK.step (fun l hl => htriple.ok (hrun.trans (by rw [hl])) hfresh hK.1)
      fun e he => htriple.error (hrun.trans (by rw [he])) hfresh hK.1
  | @capture s s' hist r activeKey packLimit capacity base a changes h hkey hbase hrun ih =>
    have hgrows := (grows_capture (A := fresh rand) C
      (stagingWriter rand { scope, activeKey, keys, packLimit }) base capacity changes).grows s
    rw [hrun] at hgrows
    obtain ⟨K, hK⟩ := ih ((fresh rand).earlier hgrows hfresh)
    obtain ⟨shape, hversion, hcap⟩ := hK.2 _ hbase
    have htriple := triple_capture rand { scope, activeKey, keys, packLimit } hC hkey hversion capacity
      changes
    refine hK.step (fun l hl => ?_) fun e he => htriple.error (hrun.trans (by rw [he])) hfresh hK.1
    obtain ⟨K', shape', hK', hstaged, hnew, hcap'⟩ := htriple.ok (hrun.trans (by rw [hl])) hfresh hK.1
    exact ⟨K', shape', hK', hstaged, hnew, hcap'.trans hcap⟩

/-- What is cataloged reads as its array. -/
theorem Catalogs.readsAs (hC : C.Lawful) {s : Staging} {hist : History} {K : Catalog}
    (h : Catalogs C scope keys s hist K) (hsha : NoCollision s.objects) {v : Locator × BlockArray}
    (hv : v ∈ hist) : ReadsAs C s.objects scope keys v.1 v.2 := by
  obtain ⟨shape, hversion, hcap⟩ := h.2 v hv
  obtain ⟨hopen, hreads⟩ := hversion.reads (h.1.readable hC hsha)
  rw [← h.1.objects] at hopen hreads
  refine ⟨_, hopen, fun offset length h0 h1 hmax hfit => ?_⟩
  have := hreads offset.toNat length.toNat (by omega) (by omega)
  rwa [Int.toNat_of_nonneg h0, Int.toNat_of_nonneg h1] at this

/-- A cataloged version has no entries but for blocks with data. -/
theorem Catalogs.pruned (hC : C.Lawful) {s : Staging} {hist : History} {K : Catalog}
    (h : Catalogs C scope keys s hist K) (hsha : NoCollision s.objects) {v : Locator × BlockArray}
    (hv : v ∈ hist) : Pruned C s.objects scope keys v.1 v.2 := by
  obtain ⟨shape, hversion, -⟩ := h.2 v hv
  have hK := h.1.readable hC hsha
  intro t hopen
  rw [h.1.objects, (hversion.reads hK).1] at hopen
  cases hopen
  exact ⟨fun level start n hvisit => (hversion.visits hK hvisit).1,
    fun b hstores => hversion.not_hole hK hstores⟩

/-- **Captures refine overwriting.** The locator a capture returns reads as its base with the changed
blocks replaced, and a block that was changed to zeros is a hole of its tree: no leaf has an entry for
it, and nodes without entries are gone. Capturing nothing returns the base itself, and every version
returned before reads after the capture as it did before it. -/
theorem capture_refines (hC : C.Lawful) {s s' : Staging} {hist : History}
    (hreach : Reaches C rand scope keys Utf8 s hist) {base l : Locator} {a : BlockArray}
    (hbase : (base, a) ∈ hist) {activeKey : Bytes} (hkey : Utf8 activeKey) {packLimit capacity : Int}
    {changes : Changes}
    (hrun : Act.from ((stagingWriter rand { scope, activeKey, keys, packLimit }).capture C base capacity
      changes) s = (.ok l, s'))
    (hsha : NoCollision s'.objects) (hsalt : ∀ i < s'.drawn, ∀ j < s'.drawn, rand i = rand j → i = j) :
    ReadsAs C s'.objects scope keys l (a.overwrite changes)
      ∧ Pruned C s'.objects scope keys l (a.overwrite changes)
      ∧ (∀ t b, openTree C s'.objects.source scope keys l = .ok t → changes.lookup b = some zeroBlock →
        ¬t.Stores C b)
      ∧ (changes.entries.length = 0 → l = base)
      ∧ ∀ v ∈ hist, ReadsAs C s.objects scope keys v.1 v.2 ∧ ReadsAs C s'.objects scope keys v.1 v.2 := by
  have hfresh : (fresh rand).holds s' := ⟨hsha, hsalt⟩
  have hgrows := (grows_capture (A := fresh rand) C
    (stagingWriter rand { scope, activeKey, keys, packLimit }) base capacity changes).grows s
  rw [hrun] at hgrows
  have hfresh₀ := (fresh rand).earlier hgrows hfresh
  have hreach' := Reaches.capture activeKey packLimit capacity base a changes hreach hkey hbase hrun
  obtain ⟨K, hK⟩ := hreach.catalogs hC hfresh₀
  obtain ⟨K', hK'⟩ := hreach'.catalogs hC hfresh
  have hpruned := hK'.pruned hC hsha (List.mem_cons_self ..)
  refine ⟨hK'.readsAs hC hsha (List.mem_cons_self ..), hpruned, fun t b hopen hzero hstores => ?_,
    fun hnone => capture_of_no_changes hnone hrun, fun v hv => ⟨hK.readsAs hC hfresh₀.1 hv, ?_⟩⟩
  · refine (hpruned t hopen).2 b hstores (hole_iff_window.mpr ?_)
    exact window_overlay hzero List.length_replicate
  · exact hK'.readsAs hC hsha (List.mem_cons_of_mem _ hv)

/-! ## A run -/

/-- A digest with one byte of information. -/
def byteDigest (n : Nat) : Digest := (Vector.replicate 32 (0 : UInt8)).set 0 (UInt8.ofNat n)

/-- Primitives for concrete runs: lawful, and without collisions where lengths differ. -/
def plainCrypto : Crypto where
  sha256 b := byteDigest b.length
  hkdf key _ _ := key
  gcmSeal _ _ plain _ := plain ++ List.replicate 16 0
  gcmOpen _ _ cipher _ := if 16 ≤ cipher.length then some (cipher.take (cipher.length - 16)) else none

theorem plainCrypto_lawful : plainCrypto.Lawful where
  open_seal _ _ plain _ := by simp [plainCrypto]
  length_seal _ _ plain _ := by simp [plainCrypto]
  length_open _ _ cipher _ plain h := by
    simp only [plainCrypto, Option.ite_none_right_eq_some, Option.some.injEq] at h
    rw [← h.2, List.length_take]
    omega

/-- The writer of the run. -/
def demoConfig (activeKey : Bytes) : WriterConfig :=
  { scope := ascii "disk", activeKey, keys := [(activeKey, List.replicate 32 1)], packLimit := 1048576 }

def demoBlock : Bytes := 1 :: List.replicate 4095 0

/-- Two blocks are written, and one is set to zeros. -/
def demoChanges : Changes := ((AList.singleton 0 demoBlock).insert 1 demoBlock).insert 2 zeroBlock

/-- An empty version of three blocks, and a capture that changes them. -/
def demoRun (activeKey : Bytes) : Result (Locator × Locator) × Staging :=
  Act.from (do
      let base ← (stagingWriter byteDigest (demoConfig activeKey)).empty plainCrypto 12288 64
      let l ← (stagingWriter byteDigest (demoConfig activeKey)).capture plainCrypto base 12288
        demoChanges
      pure (base, l))
    { objects := [], drawn := 0 }

/-- The block of zeros is not staged. Said once, so that no run compares it octet by octet. -/
theorem stageData_demoChanges {σ : Type} (w : Writer σ) :
    w.stageData plainCrypto demoChanges (demoChanges.keys.insertionSort (· ≤ ·)) (fun _ => none) [] []
      = w.flushData plainCrypto (fun _ => none) [demoBlock, demoBlock] [0, 1] := by
  have hkeys : demoChanges.keys.insertionSort (· ≤ ·) = [0, 1, 2] := by decide
  have h0 : (demoChanges.lookup 0).getD [] = demoBlock := by
    rw [demoChanges, AList.lookup_insert_ne (by decide), AList.lookup_insert_ne (by decide)]
    rfl
  have h1 : (demoChanges.lookup 1).getD [] = demoBlock := by
    rw [demoChanges, AList.lookup_insert_ne (by decide), AList.lookup_insert, Option.getD_some]
  have h2 : (demoChanges.lookup 2).getD [] = zeroBlock := by
    rw [demoChanges, AList.lookup_insert, Option.getD_some]
  have hne : demoBlock ≠ zeroBlock := fun h => absurd (congrArg List.head? h) (by decide)
  have hroom : ¬([] ++ [demoBlock]).length = maxRecords := by decide
  have hroom' : ¬([] ++ [demoBlock] ++ [demoBlock]).length = maxRecords := by decide
  have hsame : Function.update (fun _ => none : Values) 2 none = fun _ => none := Function.update_eq_self 2 _
  rw [hkeys, Writer.stageData, h0, if_neg hne, if_neg hroom, Writer.stageData, h1, if_neg hne, if_neg hroom',
    Writer.stageData, h2, if_pos rfl, hsame, Writer.stageData]
  rfl

/-- The segment of the two blocks. Its size is written out, so that no run measures it. -/
theorem sealObject_demoBlocks (scope key : Bytes) (r : Ref) (hkind : r.kind = segmentKind) :
    sealObject plainCrypto scope key r [demoBlock, demoBlock] = (do
      reject (2 ≠ r.count ∨ r.size ≠ 0 ∨ r.digest ≠ zeroDigest) (.text "invalid new record descriptor")
      let h ← header scope r
      let derived ← recordAEAD plainCrypto key r h
      .ok ({ r with size := (h.length + 8232 : Nat), digest := byteDigest (h.length + 8232) },
        h ++ (sealRecord plainCrypto derived h 1 demoBlock ++ (sealRecord plainCrypto derived h 2 demoBlock ++ [])))) := by
  have hlength : demoBlock.length = 4096 := congrArg (· + 1) List.length_replicate
  have hseal (derived h : Bytes) : sealRecords plainCrypto derived h segmentKind 0 [demoBlock, demoBlock]
      = .ok (sealRecord plainCrypto derived h 1 demoBlock ++ (sealRecord plainCrypto derived h 2 demoBlock ++ [])) := by
    simp [sealRecords, hlength, blockSize, maxMetadata, ok_bind]
  have hsize (derived h : Bytes) : (h ++ (sealRecord plainCrypto derived h 1 demoBlock
      ++ (sealRecord plainCrypto derived h 2 demoBlock ++ []))).length = h.length + 8232 := by
    simp [sealRecord, plainCrypto, hlength, length_beBytes]
  have hdigest (b : Bytes) : plainCrypto.sha256 b = byteDigest b.length := rfl
  simp only [sealObject, hkind, hseal, ok_bind, hdigest, hsize]
  rfl

/-- The run succeeded, with four objects of different digests under four salts. -/
def settled (run : Result (Locator × Locator) × Staging) : Bool :=
  match run with
  | (.ok _, s) => (s.objects.map Prod.fst).Nodup ∧ s.drawn = 4
  | (.error _, _) => false

theorem byteDigest_inj : ∀ i < 4, ∀ j < 4, byteDigest i = byteDigest j → i = j := by
  decide +kernel

/-- A settled run meets the assumptions about primitives and salts. -/
theorem demoRun_reaches {activeKey : Bytes} (ok : Bytes → Prop) (hkey : ok activeKey)
    (h : settled (demoRun activeKey) = true) :
    ∃ base l s s', demoRun activeKey = (.ok (base, l), s')
      ∧ Reaches plainCrypto byteDigest (ascii "disk") (demoConfig activeKey).keys ok s
          [(base, .zero 12288)]
      ∧ Act.from ((stagingWriter byteDigest (demoConfig activeKey)).capture plainCrypto base 12288
          demoChanges) s = (.ok l, s')
      ∧ NoCollision s'.objects
      ∧ ∀ i < s'.drawn, ∀ j < s'.drawn, byteDigest i = byteDigest j → i = j := by
  rcases hrun : demoRun activeKey with ⟨r, s'⟩
  rw [hrun] at h
  cases r with
  | error e => simp [settled] at h
  | ok locators =>
    simp only [settled, decide_eq_true_eq] at h
    obtain ⟨base, s, hempty, hrest⟩ := from_bind_ok hrun
    obtain ⟨l, t, hcapture, hpure⟩ := from_bind_ok hrest
    cases hpure
    refine ⟨base, l, s, s', rfl, ?_, hcapture, NoCollision.of_nodup h.1, ?_⟩
    · exact Reaches.empty activeKey 1048576 12288 64 Reaches.start hkey hempty
    · rw [h.2]
      exact byteDigest_inj

theorem demoRun_settled : settled (demoRun (ascii "key")) = true := by
  simp only [demoRun, Writer.capture, Writer.stageVersion, stageData_demoChanges, Writer.flushData, Writer.sealNew,
    sealObject_demoBlocks]
  decide +kernel

/-- The history of the run under a UTF-8 key. -/
theorem demoRun_captured : ∃ base l s, demoRun (ascii "key") = (.ok (base, l), s)
    ∧ Reaches plainCrypto byteDigest (ascii "disk") (demoConfig (ascii "key")).keys Utf8 s
        [(l, (BlockArray.zero 12288).overwrite demoChanges), (base, .zero 12288)]
    ∧ (fresh byteDigest).holds s := by
  have hkey : Utf8 (ascii "key") := utf8_of_ascii (by decide)
  obtain ⟨base, l, s, s', hdemo, hreach, hrun, hfresh⟩ := demoRun_reaches Utf8 hkey demoRun_settled
  exact ⟨base, l, s', hdemo,
    Reaches.capture (ascii "key") 1048576 12288 base _ _ hreach hkey (List.mem_singleton_self _) hrun, hfresh⟩

/-- The version of a run under a UTF-8 key reads as the blocks it was given, and has none for the zeros. -/
theorem capture_refines_demo : ∃ base l s s',
    Act.from ((stagingWriter byteDigest (demoConfig (ascii "key"))).capture plainCrypto base 12288
      demoChanges) s = (.ok l, s')
    ∧ ReadsAs plainCrypto s'.objects (ascii "disk") (demoConfig (ascii "key")).keys l
        ((BlockArray.zero 12288).overwrite demoChanges)
    ∧ ∀ t, openTree plainCrypto s'.objects.source (ascii "disk") (demoConfig (ascii "key")).keys l = .ok t →
        ¬t.Stores plainCrypto 2 := by
  have hkey : Utf8 (ascii "key") := utf8_of_ascii (by decide)
  obtain ⟨base, l, s, s', -, hreach, hrun, hsha, hsalt⟩ := demoRun_reaches Utf8 hkey demoRun_settled
  obtain ⟨hreads, -, hzero, -⟩ :=
    capture_refines plainCrypto_lawful hreach (List.mem_singleton_self _) hkey hrun hsha hsalt
  exact ⟨base, l, s, s', hrun, hreads, fun t hopen => hzero t 2 hopen (AList.lookup_insert _)⟩

/-- The first byte of the version a run captured. -/
def demoRead (activeKey : Bytes) : Result Bytes := do
  let locators ← (demoRun activeKey).1
  let t ← openTree plainCrypto (demoRun activeKey).2.objects.source (ascii "disk")
    (demoConfig activeKey).keys locators.2
  t.readRange plainCrypto 0 1

/-- **A key id that is not UTF-8 text breaks the version it seals.** The capture succeeds, but the
leaf's segment table, which is JSON, has another key id, and reading the block fails. -/
theorem capture_key_not_utf8 : ∃ base l s s',
    Reaches plainCrypto byteDigest (ascii "disk") (demoConfig [255]).keys (fun _ => True) s
      [(base, .zero 12288)]
    ∧ Act.from ((stagingWriter byteDigest (demoConfig [255])).capture plainCrypto base 12288
        demoChanges) s = (.ok l, s')
    ∧ NoCollision s'.objects
    ∧ (∀ i < s'.drawn, ∀ j < s'.drawn, byteDigest i = byteDigest j → i = j)
    ∧ ¬ReadsAs plainCrypto s'.objects (ascii "disk") (demoConfig [255]).keys l
        ((BlockArray.zero 12288).overwrite demoChanges) := by
  have hcheck : settled (demoRun [255]) = true ∧ (demoRead [255]).toBool = false := by
    simp only [demoRead, demoRun, Writer.capture, Writer.stageVersion, stageData_demoChanges, Writer.flushData,
      Writer.sealNew, sealObject_demoBlocks]
    decide +kernel
  obtain ⟨base, l, s, s', hdemo, hreach, hrun, hsha, hsalt⟩ :=
    demoRun_reaches (fun _ => True) trivial hcheck.1
  refine ⟨base, l, s, s', hreach, hrun, hsha, hsalt, ?_⟩
  rintro ⟨t, hopen, hreads⟩
  have hread := hreads 0 1 (by decide) (by decide) (by decide) (by decide)
  have hfailed := hcheck.2
  rw [demoRead, hdemo, ok_bind] at hfailed
  simp only at hfailed
  rw [hopen, ok_bind, hread] at hfailed
  cases hfailed

end Helmr.BlockFormat
