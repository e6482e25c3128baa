import Meguro.Mapper.NoLoss

/-!
# Incremental map runs

`--incremental-map` opens the output of an earlier run without truncating it,
but the process still starts from an empty shadow key map, so it issues the
shadow keys of every key from the first one on. The file of both runs is the
file of one run of all emits as long as the runs emit different keys. A key of
both runs gets the same shadow keys twice, and the puts of the second run land
on the records of the first.
-/

namespace Meguro

open Transition Occurrence LastWrite MapperState

/-! ## Emits one after the other -/

/-- The steps of a thread that makes these emits one after the other, all puts
succeeding, from this map on. -/
def emitSteps (map : ShadowKeyMap) : List (CString × CString) → List (MapperLabel Unit)
  | [] => []
  | (key, value) :: es =>
    let issued := map.incrementAndReturnShadowKey key
    .emitLocked () key value issued.2 :: .put () issued.2 value true :: emitSteps issued.1 es

/-- The steps of a process, which starts from a new map. -/
def processSteps (es : List (CString × CString)) : List (MapperLabel Unit) :=
  emitSteps OrderedMap.empty es

/-- The map output a process leaves: opened as the option says, then the emits. -/
def mapProcess (incremental : Bool) (file : Option (Records CString))
    (es : List (CString × CString)) : Option (Records CString) :=
  (tchdbopen file (openMode incremental)).bind fun records =>
    (run step (startOn records) (processSteps es)).map fun s => s.mapOut.records

/-- The steps are a run, whatever the file holds. -/
theorem run_emitSteps (es : List (CString × CString)) (s : MapperState Unit)
    (hopen : s.mapOut.status = .opened) (hdone : s.AllDone) :
    ∃ t, run step s (emitSteps s.shadowKeyMap es) = some t ∧ t.AllDone := by
  induction es generalizing s with
  | nil => exact ⟨s, rfl, hdone⟩
  | cons e es ih =>
    obtain ⟨key, value⟩ := e
    let issued := s.shadowKeyMap.incrementAndReturnShadowKey key
    let t : MapperState Unit := ⟨issued.1, s.mapOut.put issued.2 value, s.pending⟩
    obtain ⟨u, hu, hall⟩ := ih t hopen hdone
    refine ⟨u, run_cons.mpr ⟨_, if_pos ⟨hdone (), rfl⟩, run_cons.mpr ⟨t, ?_, hu⟩⟩, hall⟩
    have hpending : Function.update (Function.update s.pending () (some (issued.2, value))) ()
        none = s.pending := by
      funext thread
      exact (Function.update_self ..).trans (hdone thread).symm
    simp [step, hopen, t, issued, hpending]

theorem successfulEmits_emitSteps (map : ShadowKeyMap) (es : List (CString × CString)) :
    SuccessfulEmits (emitSteps map es) := by
  induction es generalizing map with
  | nil => exact fun l hl => absurd hl List.not_mem_nil
  | cons e es ih =>
    intro l hl
    simp only [emitSteps, List.mem_cons] at hl
    rcases hl with rfl | rfl | hl
    · trivial
    · rfl
    · exact ih _ l hl

/-- The emits of the steps are the given ones. -/
theorem map_emits_emitSteps (map : ShadowKeyMap) (es : List (CString × CString)) :
    (emits (emitSteps map es)).map (fun e => (e.key, e.value)) = es := by
  induction es generalizing map with
  | nil => rfl
  | cons e es ih => exact congrArg (e :: ·) (ih _)

theorem emittedKeys_processSteps (es : List (CString × CString)) :
    emittedKeys (processSteps es) = es.map Prod.fst := by
  have h := congrArg (List.map Prod.fst) (map_emits_emitSteps OrderedMap.empty es)
  rwa [List.map_map] at h

/-- What the steps land is what they issue, in the same order. -/
theorem landed_emitSteps (map : ShadowKeyMap) (es : List (CString × CString)) :
    landed (emitSteps map es) =
      (emits (emitSteps map es)).map fun e => (e.shadowKey, e.value) := by
  induction es generalizing map with
  | nil => rfl
  | cons e es ih => exact congrArg (_ :: ·) (ih _)

/-- A process leaves what was in the file it opened, then its puts. -/
theorem mapProcess_eq (incremental : Bool) (file : Option (Records CString))
    (es : List (CString × CString)) : mapProcess incremental file es =
      (tchdbopen file (openMode incremental)).map fun records =>
        writes records (landed (processSteps es)) := by
  cases h : tchdbopen file (openMode incremental) with
  | none => simp [mapProcess, h]
  | some records =>
    obtain ⟨s, hs, -⟩ := run_emitSteps es (startOn records) rfl fun _ => rfl
    have hrun : run step (startOn records) (processSteps es) = some s := hs
    simp [mapProcess, h, hrun, run_records hrun]

/-! ## Continuing an earlier run -/

/-- What it means that the second run, incremental on the file of the first,
continues it. -/
structure Continues (file : Option (Records CString)) (s₁ s₂ : List (CString × CString)) :
    Prop where
  /-- The file is the one of a single run that makes all the emits. -/
  output : mapProcess true (mapProcess false file s₁) s₂ = mapProcess false file (s₁ ++ s₂)
  /-- The second run puts no value of a key on a record of the key's first-run values. -/
  beside : ∀ e₁ ∈ emits (processSteps s₁), ∀ e₂ ∈ emits (processSteps s₂),
    e₁.key = e₂.key → e₁.shadowKey ≠ e₂.shadowKey

/-- The keys of a list of emits that no earlier emit has are issued their shadow
keys as in a new process. -/
theorem landed_emitSteps_of_disjoint {past : List CString} {es : List (CString × CString)}
    (done : List CString) (h : ∀ key ∈ es.map Prod.fst, key ∉ past) :
    landed (emitSteps (incrementAll (past ++ done)) es) =
      landed (emitSteps (incrementAll done) es) := by
  induction es generalizing done with
  | nil => rfl
  | cons e es ih =>
    obtain ⟨key, value⟩ := e
    have hkey : past.count key = 0 := List.count_eq_zero.mpr (h key (by simp))
    have hissued : (incrementAll (past ++ done ++ [key])).currentShadowKey key =
        (incrementAll (done ++ [key])).currentShadowKey key := by
      rw [currentShadowKey_incrementAll, currentShadowKey_incrementAll, List.count_append, hkey,
        Nat.zero_add]
    have hrest := ih (done ++ [key]) fun k hk => h k (List.mem_cons_of_mem _ hk)
    rw [← List.append_assoc] at hrest
    simp only [emitSteps, ShadowKeyMap.incrementAndReturnShadowKey_eq, ← incrementAll_snoc,
      hissued]
    exact congrArg (_ :: ·) hrest

theorem emitSteps_append (past : List CString) (s₁ s₂ : List (CString × CString)) :
    emitSteps (incrementAll past) (s₁ ++ s₂) = emitSteps (incrementAll past) s₁ ++
      emitSteps (incrementAll (past ++ s₁.map Prod.fst)) s₂ := by
  induction s₁ generalizing past with
  | nil => simp [emitSteps]
  | cons e s₁ ih =>
    have hrest := ih (past ++ [e.1])
    rw [List.append_assoc, incrementAll_snoc] at hrest
    exact congrArg (_ :: _ :: ·) hrest

/-- Both files are written by the puts of the first run, then those of the
second with the shadow keys its map issues. -/
theorem output_iff (file : Option (Records CString)) (s₁ s₂ : List (CString × CString)) :
    mapProcess true (mapProcess false file s₁) s₂ = mapProcess false file (s₁ ++ s₂) ↔
      writes ∅ (landed (processSteps s₁) ++ landed (processSteps s₂)) =
        writes ∅ (landed (processSteps (s₁ ++ s₂))) := by
  simp only [mapProcess_eq, openMode, tchdbopen, writes_append, Bool.false_eq_true, if_false,
    if_true, Option.map_some, Option.some.injEq]

theorem output_of_disjoint (file : Option (Records CString)) {s₁ s₂ : List (CString × CString)}
    (h : ∀ key ∈ s₁.map Prod.fst, key ∉ s₂.map Prod.fst) :
    mapProcess true (mapProcess false file s₁) s₂ = mapProcess false file (s₁ ++ s₂) := by
  rw [output_iff]
  have hsplit := congrArg landed (emitSteps_append [] s₁ s₂)
  have hsecond : landed (emitSteps (incrementAll (s₁.map Prod.fst ++ [])) s₂) =
      landed (emitSteps (incrementAll []) s₂) :=
    landed_emitSteps_of_disjoint [] fun key h₂ h₁ => h key h₁ h₂
  rw [List.append_nil] at hsecond
  rw [landed_append] at hsplit
  change writes ∅ (_ ++ landed (emitSteps (incrementAll []) s₂)) = _
  rw [← hsecond]
  exact congrArg (writes ∅) hsplit.symm

/-- The first emit of a key is issued the key itself. -/
theorem exists_emit_of_mem {es : List (CString × CString)} {key : CString}
    (h : key ∈ es.map Prod.fst) :
    ∃ e ∈ emits (processSteps es), e.key = key ∧ e.shadowKey = key := by
  obtain ⟨s, hs, -⟩ := run_emitSteps es (startOn ∅) rfl fun _ => rfl
  have hrun : run step (startOn ∅) (processSteps es) = some s := hs
  have hzero : (key, key) ∈ (emits (processSteps es)).map fun e => (e.key, e.shadowKey) := by
    rw [run_issued hrun, emittedKeys_processSteps]
    exact List.mem_map.mpr ⟨(key, 0), mem_ranked.mpr (List.count_pos_iff.mpr h),
      Prod.ext rfl (CString.ext rfl)⟩
  obtain ⟨e, he, hpair⟩ := List.mem_map.mp hzero
  exact ⟨e, he, (Prod.mk.inj hpair).1, (Prod.mk.inj hpair).2⟩

/-- An incremental run continues the earlier one exactly when no key is emitted in both. -/
theorem continues_iff_disjoint (file : Option (Records CString))
    (s₁ s₂ : List (CString × CString)) : Continues file s₁ s₂ ↔
      ∀ key ∈ s₁.map Prod.fst, key ∉ s₂.map Prod.fst := by
  constructor
  · intro h key h₁ h₂
    obtain ⟨e₁, he₁, hkey₁, hshadow₁⟩ := exists_emit_of_mem h₁
    obtain ⟨e₂, he₂, hkey₂, hshadow₂⟩ := exists_emit_of_mem h₂
    exact h.beside e₁ he₁ e₂ he₂ (hkey₁.trans hkey₂.symm) (hshadow₁.trans hshadow₂.symm)
  · intro h
    refine ⟨output_of_disjoint file h, fun e₁ he₁ e₂ he₂ hsame => ?_⟩
    have hmem {es : List (CString × CString)} {e : Emit} (he : e ∈ emits (processSteps es)) :
        e.key ∈ es.map Prod.fst := by
      rw [← emittedKeys_processSteps]
      exact List.mem_map.mpr ⟨e, he, rfl⟩
    exact absurd (hsame ▸ hmem he₂) (h e₁.key (hmem he₁))

/-- Where no emitted key looks like an issued shadow key, the file alone tells. -/
theorem output_iff_disjoint (file : Option (Records CString)) {s₁ s₂ : List (CString × CString)}
    (hcount : ∀ key, ((s₁ ++ s₂).map Prod.fst).count key < 2 ^ 31)
    (hno : NoLookalike ((s₁ ++ s₂).map Prod.fst)) :
    mapProcess true (mapProcess false file s₁) s₂ = mapProcess false file (s₁ ++ s₂) ↔
      ∀ key ∈ s₁.map Prod.fst, key ∉ s₂.map Prod.fst := by
  refine ⟨fun h => ?_, output_of_disjoint file⟩
  have hlen (es : List (CString × CString)) : (landed (processSteps es)).length = es.length := by
    rw [processSteps, landed_emitSteps, List.length_map,
      ← List.length_map (f := fun e : Emit => (e.key, e.value)), map_emits_emitSteps]
  have hsingle : ((landed (processSteps (s₁ ++ s₂))).map Prod.fst).Nodup := by
    obtain ⟨s, hs, hdone⟩ := run_emitSteps (s₁ ++ s₂) (startOn ∅) rfl fun _ => rfl
    have hrun : run step start (processSteps (s₁ ++ s₂)) = some s := hs
    rw [(landedKeys_perm hrun (successfulEmits_emitSteps _ _) hdone).nodup_iff,
      emittedKeys_processSteps]
    exact (nodup_issuedKeys_iff hcount).mpr hno
  have hboth : ((landed (processSteps s₁) ++ landed (processSteps s₂)).map Prod.fst).Nodup := by
    rw [← card_writes_empty_iff, (output_iff file s₁ s₂).mp h, card_writes_empty_iff.mpr hsingle,
      hlen, List.length_append, List.length_append, hlen, hlen]
  have hmem {es : List (CString × CString)} {key : CString} (hkey : key ∈ es.map Prod.fst) :
      key ∈ (landed (processSteps es)).map Prod.fst := by
    obtain ⟨e, he, -, hshadow⟩ := exists_emit_of_mem hkey
    rw [processSteps, landed_emitSteps, List.map_map]
    exact List.mem_map.mpr ⟨e, he, hshadow⟩
  rw [List.map_append, List.nodup_append] at hboth
  intro key h₁ h₂
  exact hboth.2.2 key (hmem h₁) key (hmem h₂) rfl

/-- Both runs emit `a` once: the file holds one record instead of two. -/
theorem not_continues_sameKey :
    ¬ ∀ (file : Option (Records CString)) (s₁ s₂ : List (CString × CString)),
      Continues file s₁ s₂ := by
  intro h
  have hout := (output_iff _ _ _).mp
    (h none [(.ofLiteral "a", .ofLiteral "1")] [(.ofLiteral "a", .ofLiteral "2")]).output
  exact absurd (congrArg (fun r : Records CString => r.keys.card) hout) (by decide)

end Meguro
