import Unfydqry.Retry

/-! # Asking before opening

`reindexStatus` looks at a file as an open would and stops before it adopts anything. A host
that chooses its constructor by the answer is never rejected, whatever the file holds. -/

namespace Unfydqry

open LockedStore Prog SearchEngine

namespace Db

/-- What an open under a fingerprint finds. -/
def status (requested : Text) (db : Db) : ReindexStatus :=
  match db.storedProfile with
  | none => .empty
  | some stored => if stored = requested then .upToDate else .configChanged

variable (env : Env) (db : Db)

theorem created_version : db.created.metaTable.indexVersion ≠ none := by
  unfold Db.created
  dsimp only
  split
  · rename_i hv
    rw [hv]
    simp
  · simp

theorem created_columns : ∃ c, db.created.columns = some c := by
  unfold Db.created
  cases hc : db.columns with
  | none =>
    dsimp only
    split
    · exact ⟨_, rfl⟩
    · exact ⟨_, rfl⟩
  | some c =>
    dsimp only
    split
    · exact ⟨c, hc⟩
    · exact ⟨c, hc⟩

theorem backfilled_metaTable : (db.backfilled env).metaTable = db.metaTable := by
  have hrow : ∀ (db : Db) row, (db.reverseRow row).metaTable = db.metaTable := by
    intro db row
    unfold Db.reverseRow
    split <;> rfl
  unfold Db.backfilled
  apply List.foldlRecOn (db.norms env) Db.reverseRow
    (motive := fun d => d.metaTable = db.metaTable)
  · rfl
  · intro d hd row _
    rw [hrow, hd]

/-- After `open_schema` both columns are there, whatever the file was. -/
theorem opened_created : (db.opened env).Created := by
  obtain ⟨c, hc⟩ := created_columns db
  have hraw : db.created.withRaw.columns = some { c with raw := true } ∧
      db.created.withRaw.metaTable = db.created.metaTable := by
    unfold Db.withRaw
    split
    · rename_i hany
      rw [hc] at hany ⊢
      obtain ⟨normRev, raw⟩ := c
      obtain rfl : raw = true := hany
      exact ⟨rfl, rfl⟩
    · rw [hc]
      exact ⟨rfl, rfl⟩
  have hrev : (db.opened env).columns = some { normRev := true, raw := true } ∧
      (db.opened env).metaTable = db.created.withRaw.metaTable := by
    unfold Db.opened Db.withNormRev
    split
    · rename_i hany
      rw [hraw.1] at hany ⊢
      obtain ⟨normRev, raw⟩ := c
      obtain rfl : normRev = true := hany
      exact ⟨rfl, rfl⟩
    · rw [Migration.backfilled_columns, backfilled_metaTable, altered, hraw.1]
      exact ⟨rfl, rfl⟩
  refine ⟨hrev.1, ?_⟩
  rw [hrev.2, hraw.2]
  exact created_version db

end Db

namespace SearchEngine

variable (env : Env)

theorem reindexStatusFor_run (requested : Text) (db : Db) (cell : UInt8) :
    (reindexStatusFor env requested).run (quiet db none cell false) =
      (.ok ((db.opened env).status requested), quiet (db.opened env) none cell false) := by
  apply run_of_eval (v := quiet (db.opened env) none cell false)
  simp only [reindexStatusFor, eval_bind, eval_openSchema, andThen_ok, eval_storedProfile,
    Db.status]
  cases (db.opened env).storedProfile with
  | none => rfl
  | some stored =>
    by_cases hs : stored = requested
    · simp only [hs, if_true, eval_pure]
    · simp only [hs, if_false, eval_pure]

end SearchEngine

namespace Db

variable {env : Env} {db : Db} {o : NormalizeOptions}

theorem status_changed_iff :
    db.status o.fingerprint = .configChanged ↔
      (db.storedProfile.any fun s => s ≠ o.fingerprint) = true := by
  unfold status
  cases db.storedProfile with
  | none => simp
  | some stored =>
    by_cases hs : stored = o.fingerprint
    · simp [hs]
    · simp [hs]

/-- An open that stamps the requested fingerprint leaves nothing to renew. -/
theorem adopted_status (db : Db) (e : SearchEngine) (n : UInt8) :
    (db.adopted env e n).status e.options.fingerprint =
      if (db.adopted env e n).entries.size = 0 then .empty else .upToDate := by
  have hstamped : (db.adopted env e n).metaTable.normalizeProfile =
      some e.options.fingerprint := by
    rw [(Stamp.adopted_meta env db e n).2]
  unfold status storedProfile
  split
  · rename_i hnone
    split at hnone
    · rename_i hsize
      rw [if_pos hsize]
    · cases hnone
  · rename_i stored hsome
    split at hsome
    · cases hsome
    · rename_i hsize
      rw [hstamped, Option.getD_some] at hsome
      rw [if_pos (Option.some_inj.mp hsome).symm, if_neg hsize]

end Db

/-! ### The width that is asked for -/

/-- The file takes the width that an open asks for: none, or a valid one that is not another
than the stored one. -/
def Db.TakesWidth (db : Db) (fieldBits : Option UInt8) : Prop :=
  ∀ n, fieldBits = some n → ValidBits n ∧ ∀ stored, db.storedFieldBits = some stored → stored = n

namespace SearchEngine

variable {db : Db} {fieldBits : Option UInt8}

theorem effectiveBits_of_takes (h : db.TakesWidth fieldBits) :
    ∃ n, effectiveBits fieldBits db.storedFieldBits = .ok n := by
  cases fieldBits with
  | none => exact ⟨_, rfl⟩
  | some n =>
    obtain ⟨hvalid, hsame⟩ := h n rfl
    refine ⟨n, ?_⟩
    simp only [effectiveBits, checkFieldBits_ok hvalid, Bind.bind, Except.bind]
    cases hstored : db.storedFieldBits with
    | none => rfl
    | some stored => exact if_neg (not_not.mpr (hsame stored hstored))

theorem effectiveBits_of_not_takes (h : ¬ db.TakesWidth fieldBits) :
    ∃ err, effectiveBits fieldBits db.storedFieldBits = .error err := by
  cases heff : effectiveBits fieldBits db.storedFieldBits with
  | error err => exact ⟨err, rfl⟩
  | ok n =>
    refine absurd (fun k hk => ?_) h
    subst hk
    cases hcheck : checkFieldBits k with
    | error err =>
      simp only [effectiveBits, hcheck, Bind.bind, Except.bind] at heff
      cases heff
    | ok u =>
      refine ⟨validBits_of_check hcheck, fun stored hstored => ?_⟩
      by_contra hne
      simp only [effectiveBits, hcheck, hstored, Bind.bind, Except.bind, if_pos hne] at heff
      cases heff

end SearchEngine

/-- For every file and every request: the question answers without error and changes no more
than an open does before it is accepted. If the file does not take the width, both opens are
rejected. Otherwise the rebuilding open is accepted; the plain one is accepted unless the
answer was `configChanged`, and leaves what the rebuilding one leaves, every row as it was.
After either the answer is `upToDate`, or `empty` on a file without rows. -/
theorem status_decides_open (env : Env) (db : Db) (config : EngineOptionsConfig) :
    let asked := Host.openWorld (db.opened env)
    let requested := config.normalize.fingerprint
    ∃ status,
      (reindexStatusWithOptions env config.normalize).run (Host.openWorld db) =
        (.ok status, asked) ∧
      (¬ asked.db.TakesWidth config.fieldBits → ∃ err,
        (withOptionsRebuilding env config).run asked = (.err err, asked) ∧
          (withOptions env config).run asked = (.err err, asked)) ∧
      (asked.db.TakesWidth config.fieldBits → ∃ engine v,
        (withOptionsRebuilding env config).run asked = (.ok engine, v) ∧
        (status = .configChanged → ∃ stored, stored ≠ requested ∧
          (withOptions env config).run asked = (.err (.configMismatch stored requested), asked)) ∧
        (status ≠ .configChanged → (withOptions env config).run asked = (.ok engine, v) ∧
          v.db.docs = asked.db.docs ∧ v.db.entries = asked.db.entries) ∧
        (reindexStatusWithOptions env config.normalize).run (Host.openWorld v.db) =
          (.ok (if v.db.entries.size = 0 then .empty else .upToDate), Host.openWorld v.db)) := by
  intro asked requested
  have hcreated := Db.opened_created env db
  have hopened : (db.opened env).opened env = db.opened env := hcreated.opened
  refine ⟨(db.opened env).status config.normalize.fingerprint,
    reindexStatusFor_run env config.normalize.fingerprint db 0, ?_, ?_⟩
  · intro hwidth
    obtain ⟨err, herr⟩ := effectiveBits_of_not_takes hwidth
    have heff : effectiveBits config.fieldBits ((db.opened env).opened env).storedFieldBits =
        .error err := by
      rw [hopened]
      exact herr
    have hrejected := fun rebuild => openEngine_bits_rejected env (db.opened env) 0
      config.normalize config.strategy config.fieldBits rebuild heff
    rw [hopened] at hrejected
    exact ⟨err, hrejected true, hrejected false⟩
  · intro hwidth
    obtain ⟨n, hn⟩ := effectiveBits_of_takes hwidth
    have heff : effectiveBits config.fieldBits ((db.opened env).opened env).storedFieldBits =
        .ok n := by
      rw [hopened]
      exact hn
    have hrebuild := openEngine_run env (db.opened env) 0 config.normalize config.strategy
      config.fieldBits true heff (.inl rfl)
    rw [hopened] at hrebuild
    refine ⟨_, _, hrebuild, ?_, ?_, ?_⟩
    · intro hchanged
      have hany := Db.status_changed_iff.mp hchanged
      obtain ⟨stored, hstored, hne⟩ := (Option.any_eq_true _ _).mp hany
      refine ⟨stored, by simpa using hne, ?_⟩
      have hrejected := openEngine_profile_rejected env (db.opened env) 0 config.normalize
        config.strategy config.fieldBits heff (by rw [hopened, hstored]) (by simpa using hne)
      rw [hopened] at hrejected
      exact hrejected
    · intro hkept
      have hsame : ((db.opened env).storedProfile.any
          fun s => s ≠ config.normalize.fingerprint) = false := by
        rw [Bool.eq_false_iff]
        intro hany
        exact hkept (Db.status_changed_iff.mpr hany)
      have hplain := openEngine_run env (db.opened env) 0 config.normalize config.strategy
        config.fieldBits false heff (.inr (by rw [hopened]; exact hsame))
      rw [hopened] at hplain
      refine ⟨hplain, ?_⟩
      simp only [quiet, Db.adopted, hsame, Bool.false_eq_true, if_false]
      exact ⟨rfl, rfl⟩
    · have hadopted := Stamp.adopted_meta env (db.opened env)
        { options := config.normalize, strategy := config.strategy } n
      have hagain : (Db.adopted env { options := config.normalize, strategy := config.strategy } n
          (db.opened env)).Created := by
        refine ⟨hadopted.1.trans hcreated.columns, ?_⟩
        rw [hadopted.2]
        exact hcreated.version
      have hrun := reindexStatusFor_run env config.normalize.fingerprint (Db.adopted env
        { options := config.normalize, strategy := config.strategy } n (db.opened env)) 0
      have hstatus := @Db.adopted_status env (db.opened env)
        { options := config.normalize, strategy := config.strategy } n
      rw [hagain.opened, hstatus] at hrun
      exact hrun

/-! ### The answer after a history -/

/-- What the question answers on an index. -/
def Index.status (o : NormalizeOptions) : Index → ReindexStatus
  | .closed s texts | .opened s _ texts =>
    if texts.size = 0 then .empty else if s.options = o then .upToDate else .configChanged
  | _ => .empty

theorem Stamp.file_status (env : Env) (s : Stamp) (texts : Catalog) (o : NormalizeOptions) :
    (s.file env texts).status o.fingerprint =
      if texts.size = 0 then .empty else if s.options = o then .upToDate else .configChanged := by
  have hsize : (s.file env texts).entries.size = texts.size := Std.ExtTreeMap.size_map
  have hsame : s.options.fingerprint = o.fingerprint ↔ s.options = o := by
    constructor
    · exact fun h => NormalizeOptions.fingerprint_injective h
    · exact fun h => by rw [h]
  unfold Db.status Db.storedProfile
  rw [hsize]
  by_cases hempty : texts.size = 0
  · rw [if_pos hempty, if_pos hempty]
  · rw [if_neg hempty, if_neg hempty]
    simp only [Stamp.file, Option.getD_some, hsame]

theorem Index.host_status (env : Env) (i : Index) (o : NormalizeOptions) :
    ((i.host env).file.opened env).status o.fingerprint = i.status o := by
  have hcreated : Stamp.createdFile.status o.fingerprint = .empty := rfl
  cases i with
  | fresh =>
    have hopened : (Index.fresh.host env).file.opened env = Stamp.createdFile := Stamp.opened_fresh
    rw [hopened]
    exact hcreated
  | rejected =>
    have hopened : (Index.rejected.host env).file.opened env = Stamp.createdFile :=
      Stamp.opened_created
    rw [hopened]
    exact hcreated
  | closed s texts =>
    have hopened : ((Index.closed s texts).host env).file.opened env = s.file env texts :=
      Stamp.opened_file
    rw [hopened, Stamp.file_status, Index.status]
  | opened s strategy texts =>
    have hopened : ((Index.opened s strategy texts).host env).file.opened env =
        s.file env texts := Stamp.opened_file
    rw [hopened, Stamp.file_status, Index.status]

theorem Index.host_file_opened (env : Env) (i : Index) (h : (i.host env).file ≠ .fresh) :
    (i.host env).file.opened env = (i.host env).file := by
  cases i with
  | fresh => exact absurd rfl h
  | rejected => exact Stamp.opened_created
  | closed s texts => exact Stamp.opened_file
  | opened s strategy texts => exact Stamp.opened_file

/-- After every history the answer is that of the texts and the option set they are kept
under: no text, the requested set, or another one. Only the first question about a fresh file
changes it. -/
theorem status_after_run (env : Env) (actions : List Action) (o : NormalizeOptions) :
    (reindexStatusWithOptions env o).run (Host.openWorld (Host.run env {} actions).file) =
        (.ok ((Index.run env .fresh actions).status o),
          Host.openWorld ((Host.run env {} actions).file.opened env)) ∧
      ((Host.run env {} actions).file ≠ .fresh →
        (Host.run env {} actions).file.opened env = (Host.run env {} actions).file) := by
  have hhost : Host.run env {} actions = (Index.run env .fresh actions).host env :=
    Index.host_run actions .fresh
  rw [hhost]
  refine ⟨?_, Index.host_file_opened env _⟩
  rw [← Index.host_status env]
  exact reindexStatusFor_run env o.fingerprint _ 0

end Unfydqry
