import Helmr.Secret.Placement

/-!
# Secret — which placements can stand together

`NoCollision` is what the list is for: no two placements claim one environment variable, one file, or a
file and a directory above it. `normalize_eq_ok` says what the code accepts instead: each placement on
its own (`Fits`), the counts, distinct environment targets, and no conflict between neighbours of the
sorted file targets. Neighbours do not suffice, since `/a-b` sorts between `/a` and `/a/c`;
`normalize_sound_iff` names the lists for which this shows.
-/

namespace Helmr.Secret

open Wire Fallible
open Wire.Order

variable {canonicalOrigin : Bytes → Except Bytes Bytes} {p q : Placement} {seen : List Bytes}
  {input input' out : List Placement}

/-! ## What is wanted -/

structure NoCollision (placements : List Placement) : Prop where
  envs : (envTargets placements).Nodup
  files : (fileTargets placements).Nodup
  paths : ∀ a ∈ fileTargets placements, ∀ b ∈ fileTargets placements, ¬Beneath Path.slash a b

/-! ## One placement on its own -/

/-- The origins a variable may have in its mode. -/
def Placement.FitsMode (canonicalOrigin : Bytes → Except Bytes Bytes) (p : Placement) : Prop :=
  (p.mode = ascii "raw" ∧ p.allowedOrigins = [])
    ∨ (p.mode = ascii "protected" ∧ p.allowedOrigins ≠ [] ∧ p.allowedOrigins.length ≤ 16
      ∧ ∀ o ∈ p.allowedOrigins, ∃ c, canonicalOrigin o = .ok c)

/-- The checks of a placement that no other placement bears on. -/
def Placement.Fits (canonicalOrigin : Bytes → Except Bytes Bytes) (p : Placement) : Prop :=
  namePattern p.name = true
    ∧ ((p.kind = ascii "env" ∧ (envPattern p.target = true ∧ reservedEnv p.target = false)
        ∧ p.FitsMode canonicalOrigin)
      ∨ (p.kind = ascii "file" ∧ (p.mode = ascii "raw" ∧ p.allowedOrigins = [])
        ∧ validateFileTarget p.target = .ok ()))

/-- The canonical forms of a placement's origins. -/
def Placement.origins (canonicalOrigin : Bytes → Except Bytes Bytes) (p : Placement) : List Bytes :=
  p.allowedOrigins.filterMap fun o => (canonicalOrigin o).toOption

/-- What the loop leaves of a placement that fits. -/
def Placement.settled (canonicalOrigin : Bytes → Except Bytes Bytes) (p : Placement) : Placement :=
  { p with allowedOrigins := Slices.compact ((p.origins canonicalOrigin).insertionSort (· ≤ ·)) }

theorem mapM_canonical (origins ys : List Bytes) :
    origins.mapM (fun value => (canonicalOrigin value).mapError PlacementError.origin) = .ok ys ↔
      (∀ o ∈ origins, ∃ c, canonicalOrigin o = .ok c)
        ∧ ys = origins.filterMap fun o => (canonicalOrigin o).toOption := by
  induction origins generalizing ys with
  | nil => exact ⟨fun h => ⟨by simp, (pure_eq_ok.mp h).symm⟩, fun h => pure_eq_ok.mpr h.2.symm⟩
  | cons o origins ih =>
    rw [mapM_cons_eq_ok]
    constructor
    · rintro ⟨y, rest, hy, hrest, rfl⟩
      obtain ⟨hall, rfl⟩ := (ih rest).mp hrest
      have hy' : canonicalOrigin o = .ok y := mapError_eq_ok.mp hy
      refine ⟨List.forall_mem_cons.mpr ⟨⟨y, hy'⟩, hall⟩, ?_⟩
      simp [hy', Except.toOption]
    · rintro ⟨hall, rfl⟩
      obtain ⟨⟨y, hy⟩, hall'⟩ := List.forall_mem_cons.mp hall
      refine ⟨y, _, mapError_eq_ok.mpr hy, (ih _).mpr ⟨hall', rfl⟩, ?_⟩
      simp [hy, Except.toOption]

theorem normalizeOrigins_eq_ok {origins ys : List Bytes} :
    normalizeOrigins canonicalOrigin origins = .ok ys ↔
      (∀ o ∈ origins, ∃ c, canonicalOrigin o = .ok c)
        ∧ ys = Slices.compact ((origins.filterMap fun o => (canonicalOrigin o).toOption).insertionSort
            (· ≤ ·)) := by
  rw [normalizeOrigins, bind_eq_ok]
  constructor
  · rintro ⟨canonical, hmap, hys⟩
    obtain ⟨hall, rfl⟩ := (mapM_canonical _ _).mp hmap
    exact ⟨hall, (pure_eq_ok.mp hys).symm⟩
  · rintro ⟨hall, rfl⟩
    exact ⟨_, (mapM_canonical _ _).mpr ⟨hall, rfl⟩, rfl⟩

theorem settled_of_no_origins (h : p.allowedOrigins = []) : p.settled canonicalOrigin = p := by
  obtain ⟨name, kind, target, mode, origins⟩ := p
  cases h
  rfl

theorem raw_ne_protected : ascii "raw" ≠ ascii "protected" := by decide

theorem env_ne_file : ascii "env" ≠ ascii "file" := by decide

theorem envOrigins_eq_ok (hmode : ¬(p.mode ≠ ascii "raw" ∧ p.mode ≠ ascii "protected"))
    {origins : List Bytes} :
    envOrigins canonicalOrigin p = .ok origins ↔
      p.FitsMode canonicalOrigin ∧ origins = (p.settled canonicalOrigin).allowedOrigins := by
  unfold envOrigins Placement.FitsMode
  by_cases hprotected : p.mode = ascii "protected"
  · rw [if_pos hprotected, bind_eq_ok]
    simp only [reject_eq_ok, normalizeOrigins_eq_ok, exists_and_left, exists_const, hprotected,
      raw_ne_protected.symm, false_and, false_or, true_and, not_or, not_lt, List.length_eq_zero_iff,
      and_assoc]
    rfl
  · have hraw : p.mode = ascii "raw" := by
      by_contra h
      exact hmode ⟨h, hprotected⟩
    rw [if_neg hprotected, bind_eq_ok]
    simp only [reject_eq_ok, exists_and_left, exists_const, pure_eq_ok, hraw, raw_ne_protected,
      false_and, or_false, true_and, not_not, List.length_eq_zero_iff]
    refine and_congr_right fun hnil => ?_
    rw [settled_of_no_origins hnil, hnil, eq_comm]

theorem normalizeEnv_eq_ok :
    normalizeEnv canonicalOrigin seen p = .ok q ↔
      ((envPattern p.target = true ∧ reservedEnv p.target = false) ∧ p.FitsMode canonicalOrigin)
        ∧ p.target ∉ seen ∧ q = p.settled canonicalOrigin := by
  unfold normalizeEnv
  simp only [bind_eq_ok, reject_eq_ok, exists_and_left, exists_const, pure_eq_ok, not_or,
    Bool.not_eq_false, Bool.not_eq_true]
  constructor
  · rintro ⟨htarget, hnew, hmode, origins, horigins, rfl⟩
    obtain ⟨hfits, rfl⟩ := (envOrigins_eq_ok hmode).mp horigins
    exact ⟨⟨htarget, hfits⟩, hnew, rfl⟩
  · rintro ⟨⟨htarget, hfits⟩, hnew, rfl⟩
    have hmode : ¬(p.mode ≠ ascii "raw" ∧ p.mode ≠ ascii "protected") := by
      rintro ⟨hraw, hprotected⟩
      rcases hfits with ⟨h, _⟩ | ⟨h, _⟩
      · exact hraw h
      · exact hprotected h
    exact ⟨htarget, hnew, hmode, _, (envOrigins_eq_ok hmode).mpr ⟨hfits, rfl⟩, rfl⟩

theorem normalizeFile_eq_ok (canonicalOrigin : Bytes → Except Bytes Bytes) :
    normalizeFile p = .ok q ↔
      ((p.mode = ascii "raw" ∧ p.allowedOrigins = []) ∧ validateFileTarget p.target = .ok ())
        ∧ q = p.settled canonicalOrigin := by
  unfold normalizeFile
  simp only [bind_eq_ok, reject_eq_ok, not_or, not_not, List.length_eq_zero_iff]
  constructor
  · rintro ⟨_, hraw, _, htarget, hq⟩
    exact ⟨⟨hraw, htarget⟩, (settled_of_no_origins hraw.2).symm ▸ (pure_eq_ok.mp hq).symm⟩
  · rintro ⟨⟨hraw, htarget⟩, rfl⟩
    exact ⟨(), hraw, (), htarget, pure_eq_ok.mpr (settled_of_no_origins hraw.2).symm⟩

/-- The loop body accepts a placement that fits and whose variable is new. -/
theorem normalizePlacement_eq_ok :
    normalizePlacement canonicalOrigin seen p = .ok q ↔
      p.Fits canonicalOrigin ∧ (p.isEnv = true → p.target ∉ seen) ∧ q = p.settled canonicalOrigin := by
  unfold normalizePlacement validateName Placement.Fits Placement.isEnv
  rw [bind_eq_ok]
  simp only [reject_eq_ok, Bool.not_eq_false, exists_and_left, exists_const, decide_eq_true_eq]
  rw [and_assoc]
  refine and_congr_right fun _ => ?_
  by_cases henv : p.kind = ascii "env"
  · simp only [henv, if_true, normalizeEnv_eq_ok, true_and, forall_const, env_ne_file, false_and,
      or_false]
  · by_cases hfile : p.kind = ascii "file"
    · rw [if_neg henv, if_pos hfile, normalizeFile_eq_ok canonicalOrigin]
      simp only [hfile, env_ne_file.symm, true_and, false_and, false_or, false_imp_iff]
    · simp [henv, hfile]

/-! ## The loop -/

def originTotal (canonicalOrigin : Bytes → Except Bytes Bytes) (placements : List Placement) : Nat :=
  (placements.map fun p => (p.origins canonicalOrigin).dedup.length).sum

/-- Every check but the one for conflicting file targets. -/
structure Valid (canonicalOrigin : Bytes → Except Bytes Bytes) (input : List Placement) : Prop where
  few : input.length ≤ maxBindings
  each : ∀ p ∈ input, p.Fits canonicalOrigin
  envs : (envTargets input).Nodup
  origins : originTotal canonicalOrigin input ≤ 256

theorem length_settled_origins (p : Placement) :
    (p.settled canonicalOrigin).allowedOrigins.length = (p.origins canonicalOrigin).dedup.length :=
  Slices.length_compact (List.pairwise_insertionSort _ _) (List.perm_insertionSort _ _)

theorem originTotal_cons (p : Placement) (rest : List Placement) :
    originTotal canonicalOrigin (p :: rest)
      = (p.origins canonicalOrigin).dedup.length + originTotal canonicalOrigin rest := rfl

theorem envTargets_cons_env (h : p.isEnv = true) (rest : List Placement) :
    envTargets (p :: rest) = p.target :: envTargets rest := by
  rw [envTargets, List.filter_cons_of_pos h]
  rfl

theorem envTargets_cons_other (h : ¬p.isEnv = true) (rest : List Placement) :
    envTargets (p :: rest) = envTargets rest := by
  rw [envTargets, List.filter_cons_of_neg h]
  rfl

/-- The environment targets of a list are new and distinct, asked one by one as the loop does. -/
theorem fresh_cons (p : Placement) (rest : List Placement) (seen : List Bytes) :
    ((envTargets (p :: rest)).Nodup ∧ ∀ t ∈ envTargets (p :: rest), t ∉ seen) ↔
      (p.isEnv = true → p.target ∉ seen) ∧ (envTargets rest).Nodup
        ∧ ∀ t ∈ envTargets rest, t ∉ (if p.isEnv then p.target :: seen else seen) := by
  by_cases henv : p.isEnv = true
  · rw [envTargets_cons_env henv, List.nodup_cons, List.forall_mem_cons]
    simp only [henv, if_true, forall_const, List.mem_cons, not_or]
    constructor
    · rintro ⟨⟨hnot, hnodup⟩, hnew, hrest⟩
      exact ⟨hnew, hnodup, fun t ht => ⟨fun heq => hnot (heq ▸ ht), hrest t ht⟩⟩
    · rintro ⟨hnew, hnodup, hrest⟩
      exact ⟨⟨fun hmem => (hrest p.target hmem).1 rfl, hnodup⟩, hnew, fun t ht => (hrest t ht).2⟩
  · simp [henv, envTargets_cons_other henv]

/-- What the loop accepts, from any targets and origins seen so far. -/
theorem normalizeAll_eq_ok {originCount : Nat} (hcount : originCount ≤ 256) :
    normalizeAll canonicalOrigin input seen originCount = .ok out ↔
      (∀ p ∈ input, p.Fits canonicalOrigin)
        ∧ ((envTargets input).Nodup ∧ ∀ t ∈ envTargets input, t ∉ seen)
        ∧ originCount + originTotal canonicalOrigin input ≤ 256
        ∧ out = input.map (Placement.settled canonicalOrigin) := by
  induction input generalizing seen originCount out with
  | nil =>
    rw [normalizeAll]
    simp [envTargets, originTotal, hcount, eq_comm]
  | cons p rest ih =>
    rw [normalizeAll, bind_eq_ok, fresh_cons, originTotal_cons, List.forall_mem_cons, List.map_cons]
    constructor
    · rintro ⟨q, hq, h⟩
      obtain ⟨hfits, hnew, rfl⟩ := normalizePlacement_eq_ok.mp hq
      rw [length_settled_origins, bind_eq_ok] at h
      obtain ⟨_, hbound, h⟩ := h
      have hbound' := Nat.le_of_not_lt (reject_eq_ok.mp hbound)
      rw [bind_eq_ok] at h
      obtain ⟨qs, hqs, hout⟩ := h
      obtain ⟨hall, hfresh, htotal, rfl⟩ := (ih hbound').mp hqs
      exact ⟨⟨hfits, hall⟩, ⟨hnew, hfresh⟩, by omega, (pure_eq_ok.mp hout).symm⟩
    · rintro ⟨⟨hfits, hall⟩, ⟨hnew, hfresh⟩, htotal, rfl⟩
      refine ⟨_, normalizePlacement_eq_ok.mpr ⟨hfits, hnew, rfl⟩, ?_⟩
      rw [length_settled_origins, reject_false (by omega), ok_bind, bind_eq_ok]
      exact ⟨_, (ih (by omega)).mpr ⟨hall, hfresh, by omega, rfl⟩, rfl⟩

/-! ## The file targets -/

/-- Distinct targets of which some stands above another, each of these split from what is beneath it. -/
def Overlooked (files : List Bytes) : Prop :=
  files.Nodup ∧ (∃ a ∈ files, ∃ b ∈ files, Beneath Path.slash a b)
    ∧ ∀ a ∈ files, (∃ b ∈ files, Beneath Path.slash a b) → ∃ c ∈ files, Splits Path.slash a c

/-- What a check of neighbours tells of the targets. -/
def Separate (files : List Bytes) : Prop :=
  files.Nodup ∧ ∀ a ∈ files, (∃ b ∈ files, Beneath Path.slash a b) → ∃ c ∈ files, Splits Path.slash a c

theorem overlaps_iff {a b : Bytes} : overlaps a b ↔ b = a ∨ Beneath Path.slash a b := by
  refine or_congr_right ?_
  rw [List.isPrefixOf_iff_prefix]
  constructor
  · rintro ⟨rest, rfl⟩
    exact ⟨rest, by simp⟩
  · rintro ⟨rest, rfl⟩
    exact ⟨rest, by simp⟩

theorem checkNeighbours_eq_ok : ∀ {l : List Bytes},
    checkNeighbours l = .ok () ↔ l.IsChain (fun a b => b ≠ a ∧ ¬Beneath Path.slash a b)
  | [] => by simp [checkNeighbours]
  | [a] => by simp [checkNeighbours]
  | a :: b :: rest => by
    rw [checkNeighbours, bind_eq_ok, List.isChain_cons_cons, ← not_or, ← overlaps_iff]
    simp only [reject_eq_ok, checkNeighbours_eq_ok, exists_and_left, exists_const]

theorem separate_perm {files files' : List Bytes} (h : files.Perm files') :
    Separate files ↔ Separate files' := by
  simp only [Separate, h.nodup_iff, h.mem_iff]

theorem checkNeighbours_sort (files : List Bytes) :
    checkNeighbours (files.insertionSort (· ≤ ·)) = .ok () ↔ Separate files := by
  rw [checkNeighbours_eq_ok, isChain_iff (List.pairwise_insertionSort _ files)]
  exact separate_perm (List.perm_insertionSort _ files)

/-! ## The whole list -/

theorem fileTargets_settled (input : List Placement) :
    fileTargets (input.map (Placement.settled canonicalOrigin)) = fileTargets input := by
  rw [fileTargets, fileTargets, List.filter_map, List.map_map]
  rfl

theorem normalize_eq_ok :
    normalize canonicalOrigin input = .ok out ↔
      Valid canonicalOrigin input ∧ Separate (fileTargets input)
        ∧ out = (input.map (Placement.settled canonicalOrigin)).insertionSort Placement.before := by
  rw [normalize, bind_eq_ok]
  constructor
  · rintro ⟨_, hfew, h⟩
    rw [bind_eq_ok] at h
    obtain ⟨placements, hall, h⟩ := h
    obtain ⟨hfits, ⟨henvs, _⟩, htotal, rfl⟩ := (normalizeAll_eq_ok (Nat.zero_le _)).mp hall
    rw [bind_eq_ok, fileTargets_settled] at h
    obtain ⟨_, hcheck, hout⟩ := h
    refine ⟨⟨Nat.le_of_not_lt (reject_eq_ok.mp hfew), hfits, henvs, by omega⟩, ?_,
      (pure_eq_ok.mp hout).symm⟩
    exact (checkNeighbours_sort _).mp hcheck
  · rintro ⟨hvalid, hseparate, rfl⟩
    refine ⟨(), reject_false (Nat.not_lt.mpr hvalid.few),
      bind_eq_ok.mpr ⟨input.map (Placement.settled canonicalOrigin), ?_, ?_⟩⟩
    · refine (normalizeAll_eq_ok (Nat.zero_le _)).mpr ⟨hvalid.each, ⟨hvalid.envs, ?_⟩, ?_, rfl⟩
      · simp
      · rw [Nat.zero_add]
        exact hvalid.origins
    · rw [fileTargets_settled, (checkNeighbours_sort _).mpr hseparate]
      rfl

theorem Valid.perm (hp : input'.Perm input) (h : Valid canonicalOrigin input) :
    Valid canonicalOrigin input' where
  few := hp.length_eq ▸ h.few
  each := fun p hp' => h.each p (hp.mem_iff.mp hp')
  envs := ((hp.filter _).map _).nodup_iff.mpr h.envs
  origins := by
    have hsum : originTotal canonicalOrigin input' = originTotal canonicalOrigin input :=
      (hp.map _).sum_eq
    rw [hsum]
    exact h.origins

instance : Std.Total Placement.before := ⟨fun p q => le_total p.key q.key⟩

instance : IsTrans Placement Placement.before := ⟨fun _ _ _ => le_trans⟩

theorem Placement.key_eq (h : p.key = q.key) : p.kind = q.kind ∧ p.target = q.target := by
  have hpair := Prod.mk.inj (congrArg ofLex h)
  exact ⟨hpair.1, (Prod.mk.inj (congrArg ofLex hpair.2)).1⟩

/-- Kind and target tell the placements of an accepted list apart. -/
theorem eq_of_target (hvalid : Valid canonicalOrigin input) (hfiles : (fileTargets input).Nodup)
    (hp : p ∈ input) (hq : q ∈ input) (hkind : p.kind = q.kind) (htarget : p.target = q.target) :
    p = q := by
  rcases (hvalid.each p hp).2 with ⟨henv, _⟩ | ⟨hfile, _⟩
  · have hin (r : Placement) (hr : r ∈ input) (hk : r.kind = ascii "env") :
        r ∈ input.filter Placement.isEnv :=
      List.mem_filter.mpr ⟨hr, decide_eq_true hk⟩
    exact List.inj_on_of_nodup_map hvalid.envs (hin p hp henv) (hin q hq (hkind ▸ henv)) htarget
  · have hin (r : Placement) (hr : r ∈ input) (hk : r.kind = ascii "file") :
        r ∈ input.filter Placement.isFile :=
      List.mem_filter.mpr ⟨hr, decide_eq_true hk⟩
    exact List.inj_on_of_nodup_map hfiles (hin p hp hfile) (hin q hq (hkind ▸ hfile)) htarget

/-- An accepted list is accepted in every order, with one result. -/
theorem normalize_perm (hp : input'.Perm input) (h : normalize canonicalOrigin input = .ok out) :
    normalize canonicalOrigin input' = .ok out := by
  obtain ⟨hvalid, hseparate, rfl⟩ := normalize_eq_ok.mp h
  have hfiles : (fileTargets input').Perm (fileTargets input) := (hp.filter _).map _
  refine normalize_eq_ok.mpr ⟨hvalid.perm hp, (separate_perm hfiles).mpr hseparate, ?_⟩
  -- no two placements have one key, so the sorted list is the only one
  refine List.Perm.eq_of_pairwise ?_ (List.pairwise_insertionSort _ _)
    (List.pairwise_insertionSort _ _) ?_
  · intro a b ha hb hab hba
    rw [(List.perm_insertionSort _ _).mem_iff, List.mem_map] at ha hb
    obtain ⟨p, hp', rfl⟩ := ha
    obtain ⟨q, hq', rfl⟩ := hb
    obtain ⟨hkind, htarget⟩ := Placement.key_eq (le_antisymm hab hba)
    rw [eq_of_target hvalid hseparate.1 hp' (hp.mem_iff.mp hq') hkind htarget]
  · exact (List.perm_insertionSort _ _).trans
      ((hp.symm.map _).trans (List.perm_insertionSort _ _).symm)

theorem noCollision_iff (hvalid : Valid canonicalOrigin input) (hseparate : Separate (fileTargets input)) :
    NoCollision input ↔ ¬Overlooked (fileTargets input) := by
  constructor
  · rintro h ⟨_, ⟨a, ha, b, hb, hbeneath⟩, _⟩
    exact h.paths a ha b hb hbeneath
  · intro h
    refine ⟨hvalid.envs, hseparate.1, fun a ha b hb hbeneath => h ?_⟩
    exact ⟨hseparate.1, ⟨a, ha, b, hb, hbeneath⟩, hseparate.2⟩

theorem normalize_sound_iff (input : List Placement) :
    (∀ out, normalize canonicalOrigin input = .ok out → NoCollision input
        ∧ ∀ input', input'.Perm input → normalize canonicalOrigin input' = .ok out) ↔
      ¬(Valid canonicalOrigin input ∧ Overlooked (fileTargets input)) := by
  constructor
  · rintro h ⟨hvalid, hover⟩
    have hseparate : Separate (fileTargets input) := ⟨hover.1, hover.2.2⟩
    obtain ⟨hnone, _⟩ := h _ (normalize_eq_ok.mpr ⟨hvalid, hseparate, rfl⟩)
    exact (noCollision_iff hvalid hseparate).mp hnone hover
  · intro h out hok
    obtain ⟨hvalid, hseparate, _⟩ := normalize_eq_ok.mp hok
    refine ⟨(noCollision_iff hvalid hseparate).mpr fun hover => h ⟨hvalid, hover⟩, ?_⟩
    exact fun input' hp => normalize_perm hp hok

theorem normalizeReferences_some {refs : List Reference} {placements : List Placement}
    (h : refs.mapM Reference.placement = .ok placements) :
    normalizeReferences canonicalOrigin (some refs) = normalize canonicalOrigin placements := by
  rw [normalizeReferences, orFail, ok_bind, h, ok_bind]

/-- **Accepted placements do not collide, unless a collision is overlooked.** For placements and for
references alike: an accepted list claims nothing twice and its result does not depend on its order,
except exactly for the lists that pass every other check and whose file targets, distinct from each
other, hold a path above another, with each such path split from those beneath it. -/
theorem placements_do_not_collide_iff (canonicalOrigin : Bytes → Except Bytes Bytes) :
    (∀ input, (∀ out, normalize canonicalOrigin input = .ok out → NoCollision input
          ∧ ∀ input', input'.Perm input → normalize canonicalOrigin input' = .ok out) ↔
        ¬(Valid canonicalOrigin input ∧ Overlooked (fileTargets input)))
      ∧ ∀ refs placements, refs.mapM Reference.placement = .ok placements →
        ((∀ out, normalizeReferences canonicalOrigin (some refs) = .ok out → NoCollision placements
            ∧ ∀ refs', refs'.Perm refs → normalizeReferences canonicalOrigin (some refs') = .ok out) ↔
          ¬(Valid canonicalOrigin placements ∧ Overlooked (fileTargets placements))) := by
  refine ⟨normalize_sound_iff, fun refs placements hplaced => ?_⟩
  rw [← normalize_sound_iff placements, normalizeReferences_some hplaced]
  refine forall_congr' fun out => imp_congr_right fun hok => and_congr_right fun _ => ?_
  constructor
  · exact fun _ input' hp => normalize_perm hp hok
  · intro _ refs' hp
    obtain ⟨placements', hplaced', hperm⟩ := mapM_perm hp.symm hplaced
    rw [normalizeReferences_some hplaced']
    exact normalize_perm hperm hok

namespace Demo

def file (path : String) : Placement := ⟨ascii "token", ascii "file", ascii path, ascii "raw", []⟩

/-- `/a-b` sorts between `/a` and `/a/c`. -/
def overlooked : List Placement := [file "/a", file "/a-b", file "/a/c"]

def reference (path : String) : Reference := ⟨ascii "token", none, some (ascii path)⟩

def noOrigin : Bytes → Except Bytes Bytes := fun _ => .error (ascii "origin must be HTTPS")

end Demo

theorem placements_do_not_collide_iff_demo :
    ∃ out, normalizeReferences Demo.noOrigin (some [Demo.reference "/b", Demo.reference "/a"]) = .ok out
      ∧ NoCollision [Demo.file "/b", Demo.file "/a"] := by
  have hpath (a b : Bytes) (ha : a ∈ [ascii "/b", ascii "/a"]) (hb : b ∈ [ascii "/b", ascii "/a"])
      (hne : b ≠ a) : ¬Beneath Path.slash a b := by
    intro hbeneath
    have hnot : ∀ a ∈ [ascii "/b", ascii "/a"], ∀ b ∈ [ascii "/b", ascii "/a"],
        b ≠ a → ¬overlaps a b := by decide
    exact hnot a ha b hb hne (overlaps_iff.mpr (.inr hbeneath))
  have hsound := ((placements_do_not_collide_iff Demo.noOrigin).2
    [Demo.reference "/b", Demo.reference "/a"] [Demo.file "/b", Demo.file "/a"] rfl).mpr
  have hok : normalizeReferences Demo.noOrigin (some [Demo.reference "/b", Demo.reference "/a"])
      = .ok [Demo.file "/a", Demo.file "/b"] := by decide +kernel
  refine ⟨_, hok, (hsound ?_ _ hok).1⟩
  rintro ⟨_, _, ⟨a, ha, b, hb, hbeneath⟩, _⟩
  exact hpath a b ha hb hbeneath.lt.ne' hbeneath

theorem overlooked_accepted : ∃ out, normalize Demo.noOrigin Demo.overlooked = .ok out
    ∧ ¬NoCollision Demo.overlooked := by
  refine ⟨[Demo.file "/a", Demo.file "/a-b", Demo.file "/a/c"], by decide +kernel, fun h => ?_⟩
  exact h.paths (ascii "/a") (by decide) (ascii "/a/c") (by decide) ⟨ascii "c", by decide⟩

end Helmr.Secret
