import Helmr.BlockFormat.Staging
import Helmr.Lib.Mirror

/-!
# Block format — writers on other hosts

A writer sees its host through a source, a sink and a stream of salts. A host whose sink may refuse an object
and whose state holds more than the plain store does what the plain store does wherever a call succeeds.
-/

namespace Helmr.BlockFormat

open Wire Hoare

variable {σ τ : Type}

/-- The writer `w` on a host that keeps the state of `w` as a part `f` of its own. -/
@[reducible] def Writer.on (w : Writer τ) (f : σ → τ) (storeObject : Digest → Bytes → Act Error σ Unit)
    (randomSalt : Act Error σ Digest) : Writer σ where
  source s := w.source (f s)
  storeObject := storeObject
  randomSalt := randomSalt
  scope := w.scope
  activeKey := w.activeKey
  keys := w.keys
  packLimit := w.packLimit

@[simp] theorem Writer.validate_on (w : Writer τ) (f : σ → τ) (storeObject : Digest → Bytes → Act Error σ Unit)
    (randomSalt : Act Error σ Digest) : (w.on f storeObject randomSalt).validate = w.validate := rfl

section Mirrored

variable (C : Crypto) {w : Writer τ} {f : σ → τ} {storeObject : Digest → Bytes → Act Error σ Unit}
  {randomSalt : Act Error σ Digest} [hstore : ∀ d b, Mirrors f (storeObject d b) (w.storeObject d b)]
  [hsalt : Mirrors f randomSalt w.randomSalt]

instance mirrors_sealNew (kind : UInt8) (records : List Bytes) :
    Mirrors f ((w.on f storeObject randomSalt).sealNew C kind records) (w.sealNew C kind records) := by
  unfold Writer.sealNew
  infer_instance

instance mirrors_publish (rank : Int) (pages : List StagedPage) (converted : Converted) :
    Mirrors f ((w.on f storeObject randomSalt).publish C rank pages converted)
      (w.publish C rank pages converted) := by
  unfold Writer.publish
  infer_instance

instance mirrors_flushData (values : Values) (records : List Bytes) (pending : List Nat) :
    Mirrors f ((w.on f storeObject randomSalt).flushData C values records pending)
      (w.flushData C values records pending) := by
  unfold Writer.flushData
  infer_instance

instance mirrors_stageData (changes : Changes) (blocks : List Nat) (values : Values) (records : List Bytes)
    (pending : List Nat) :
    Mirrors f ((w.on f storeObject randomSalt).stageData C changes blocks values records pending)
      (w.stageData C changes blocks values records pending) := by
  induction blocks generalizing values records pending with
  | nil =>
    unfold Writer.stageData
    infer_instance
  | cons b rest ih =>
    have := ih
    unfold Writer.stageData
    infer_instance

instance mirrors_placeNode (rank : Int) (empty : Nat) (below : List Ref) (b : Batch) (d : DirectNode) :
    Mirrors f ((w.on f storeObject randomSalt).placeNode C rank empty below b d)
      (w.placeNode C rank empty below b d) := by
  unfold Writer.placeNode
  infer_instance

instance mirrors_placeLevel (level : Nat) (nodes : List DirectNode) (below : List Ref)
    (converted : Converted) :
    Mirrors f ((w.on f storeObject randomSalt).placeLevel C level nodes below converted)
      (w.placeLevel C level nodes below converted) := by
  unfold Writer.placeLevel
  infer_instance

instance mirrors_placeLevels (levels : Levels) (todo : List Nat) (below : List Ref) (converted : Converted) :
    Mirrors f ((w.on f storeObject randomSalt).placeLevels C levels todo below converted)
      (w.placeLevels C levels todo below converted) := by
  induction todo generalizing below converted with
  | nil =>
    unfold Writer.placeLevels
    infer_instance
  | cons level rest ih =>
    have := ih
    unfold Writer.placeLevels
    infer_instance

instance mirrors_publishRoot (shape : Root) (converted : Converted) :
    Mirrors f ((w.on f storeObject randomSalt).publishRoot C shape converted)
      (w.publishRoot C shape converted) := by
  unfold Writer.publishRoot
  infer_instance

instance mirrors_stageVersion (shape : Root) (changes : Changes) (blocks : List Nat) :
    Mirrors f ((w.on f storeObject randomSalt).stageVersion C shape changes blocks)
      (w.stageVersion C shape changes blocks) := by
  have hupdate (values : Values) := Mirrors.reads (f := f) fun t => update C (w.source t) w.scope w.keys shape
    values shape.level.toNat shape.index 0 blocks fun _ => []
  unfold Writer.stageVersion
  infer_instance

instance mirrors_admitChanges (base : Locator) (capacity : Int) (changes : Changes) :
    Mirrors f ((w.on f storeObject randomSalt).admitChanges C base capacity changes)
      (w.admitChanges C base capacity changes) := by
  have hroot := Mirrors.reads (f := f) fun t => readRoot C (w.source t) w.scope w.keys base
  unfold Writer.admitChanges
  rw [Writer.validate_on]
  infer_instance

instance mirrors_capture (base : Locator) (capacity : Int) (changes : Changes) :
    Mirrors f ((w.on f storeObject randomSalt).capture C base capacity changes)
      (w.capture C base capacity changes) := by
  unfold Writer.capture
  infer_instance

instance mirrors_empty (capacity fanout : Int) :
    Mirrors f ((w.on f storeObject randomSalt).empty C capacity fanout) (w.empty C capacity fanout) := by
  unfold Writer.empty
  rw [Writer.validate_on]
  infer_instance

end Mirrored

end Helmr.BlockFormat
