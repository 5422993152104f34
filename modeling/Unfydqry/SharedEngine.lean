import Unfydqry.Engine.Shape

/-! # One engine shared by several threads

The calls of all threads run interleaved on one engine: a load or a store of
`field_bits` is one step, and the mutex excludes other critical sections, not other
loads. `field_bits` is loaded before the mutex is taken and after it is dropped, so
a change of width in between is seen by half a call. -/

namespace Unfydqry

open LockedStore Prog

variable {ι : Type} [DecidableEq ι]

abbrev EnginePool (ι : Type) := Pool ι Db UInt8 SearchError Reply

/-- All calls are about to start on the engine. -/
def startCalls (env : Env) (e : SearchEngine) (calls : ι → Call) (w : EngineWorld) :
    EnginePool ι :=
  Pool.start (fun i => (calls i).prog env e) w

/-- Every call has returned. -/
def Finished (s : EnginePool ι) : Prop := ∀ i, (s.threads i).result.isSome

/-- The final tables and all answers are those of the calls run one after another. -/
def Linearizable (env : Env) (e : SearchEngine) (calls : ι → Call) (w : EngineWorld)
    (s : EnginePool ι) : Prop :=
  ∃ log a, Serial (fun i => (calls i).prog env e) w log a ∧ a.db = s.world.db ∧
    (log.map Prod.fst).Nodup ∧ ∀ i, ∃ o, (i, o) ∈ log ∧ (s.threads i).result = some o

/-- When each call finds the same width at all its loads and when it takes the mutex,
the calls are linearizable. -/
theorem stable_linearizable (env : Env) (e : SearchEngine) (calls : ι → Call)
    {w : EngineWorld} (hw : w.Idle) {s : EnginePool ι}
    (hrun : Pool.StableRun (startCalls env e calls w) s) (hdone : Finished s) :
    Linearizable env e calls w s := by
  obtain ⟨log, hserial, hnodup, hanswers⟩ :=
    Pool.stable_serial hw (fun i => SearchEngine.call_pre env e (calls i)) hrun hdone
  exact ⟨log, s.world, hserial, rfl, hnodup, hanswers⟩

/-! ### A width changed between the load and the lock -/

def plainEngine : SearchEngine := { options := {}, strategy := .substring }

/-- The world of an engine just opened on a fresh file. -/
def openedWorld : EngineWorld :=
  ((Constructor.withOptions { normalize := {}, strategy := .substring, fieldBits := none }).prog
    .ascii |>.run (Host.openWorld .fresh)).2

theorem openedWorld_idle : openedWorld.Idle := World.leave_idle_world _ _

def widthCalls : Bool → Call
  | false => .indexRecord 1 [{ slot := 0, text := ['a'] }]
  | true => .changeFieldBits 4

/-- `index_record` loads the width four times, then the change runs as a whole. -/
def widthSchedule : List Bool :=
  List.replicate 4 false ++ List.replicate 10 true ++ List.replicate 8 false

def storedIds (w : EngineWorld) : List Int64 := w.db.entries.toList.map Prod.fst

/-- The ids after calls that run one after another, in the order of their keys. -/
def serialIds (keys : List Bool) : List Int64 :=
  storedIds (keys.foldl (fun a i => (((widthCalls i).prog .ascii plainEngine).run a).2) openedWorld)

theorem width_schedule_ids :
    ((startCalls .ascii plainEngine widthCalls openedWorld).schedule (fun _ _ => true)
        widthSchedule).map (fun s => (storedIds s.world,
          (s.threads false).result.isSome && (s.threads true).result.isSome)) =
      some ([256], true) ∧
    serialIds [false, true] = [16] ∧ serialIds [true, false] = [16] := by
  decide +kernel

/-- Run one after another, the calls leave the record under the new width. -/
theorem width_serial_ids (keys : List Bool) (hn : keys.Nodup) (hf : false ∈ keys)
    (ht : true ∈ keys) : serialIds keys = [16] := by
  have hp : keys.Perm [false, true] :=
    (List.perm_ext_iff_of_nodup hn (by decide)).mpr fun i => by cases i <;> simp [hf, ht]
  obtain ⟨i, j, rfl⟩ := List.length_eq_two.mp hp.length_eq
  cases i <;> cases j
  · simp at hn
  · exact width_schedule_ids.2.1
  · exact width_schedule_ids.2.2
  · simp at hn

theorem width_change_not_linearizable :
    ∃ s, Pool.Run (startCalls .ascii plainEngine widthCalls openedWorld) s ∧ Finished s ∧
      ¬ Linearizable .ascii plainEngine widthCalls openedWorld s := by
  obtain ⟨s, hs, hids⟩ := Option.map_eq_some_iff.mp width_schedule_ids.1
  rw [Prod.mk.injEq, Bool.and_eq_true] at hids
  obtain ⟨hids, hfalse, htrue⟩ := hids
  refine ⟨s, Pool.run_schedule _ (.refl _) hs, fun i => by cases i <;> assumption, ?_⟩
  rintro ⟨log, a, hserial, hdb, hnodup, hanswers⟩
  have hmem : ∀ i, i ∈ log.map Prod.fst := fun i => by
    obtain ⟨o, ho, _⟩ := hanswers i
    exact List.mem_map.mpr ⟨_, ho, rfl⟩
  have hserialIds := width_serial_ids _ hnodup (hmem false) (hmem true)
  rw [serialIds, ← hserial.world, storedIds, hdb] at hserialIds
  rw [storedIds, hserialIds] at hids
  exact absurd hids (by decide)

/-! ### A width changed between the calls -/

def repackCalls : Fin 4 → Call
  | 0 => .indexRecord 1 [{ slot := 0, text := ['a'] }]
  | 1 => .changeFieldBits 4
  | 2 => .indexRecord 2 [{ slot := 0, text := ['b'] }]
  | 3 => .containsRecord 2

/-- The second record is written while the first one has loaded the width, and looked for while
the change of width has stored the new one and not yet returned. -/
def repackSchedule : List (Fin 4) :=
  List.replicate 4 0 ++ List.replicate 12 2 ++ List.replicate 8 0 ++ List.replicate 13 1 ++
    List.replicate 4 3 ++ List.replicate 1 1 ++ List.replicate 3 3

theorem repack_schedule :
    ((startCalls .ascii plainEngine repackCalls openedWorld).schedule (fun s i => s.Stable i)
      repackSchedule).map (fun s => ((storedIds s.world, s.world.cell, (s.threads 3).result),
        decide (∀ i, (s.threads i).result.isSome))) =
      some (([16, 32], 4, some (.ok (.flag true))), true) := by
  decide +kernel

theorem stable_linearizable_repack :
    ∃ s, Pool.StableRun (startCalls .ascii plainEngine repackCalls openedWorld) s ∧
      storedIds s.world = [16, 32] ∧ s.world.cell = 4 ∧
      (s.threads 3).result = some (.ok (.flag true)) ∧
      Linearizable .ascii plainEngine repackCalls openedWorld s := by
  obtain ⟨s, hs, hends⟩ := Option.map_eq_some_iff.mp repack_schedule
  simp only [Prod.mk.injEq, decide_eq_true_eq] at hends
  obtain ⟨⟨hids, hcell, hfound⟩, hdone⟩ := hends
  have hrun : Pool.StableRun (startCalls .ascii plainEngine repackCalls openedWorld) s :=
    Pool.stableRun_schedule _ (.refl _) hs
  exact ⟨s, hrun, hids, hcell, hfound,
    stable_linearizable .ascii plainEngine repackCalls openedWorld_idle hrun hdone⟩

end Unfydqry
