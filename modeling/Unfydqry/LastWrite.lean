import Unfydqry.Lib.Overlay
import Unfydqry.Reconfiguration

/-! # What is stored is what was written last

A call writes under each id a text, its removal, or nothing, whatever the index holds. After
any calls on an open engine an id holds what the last accepted call that wrote there left, and
calls on different rows commute. -/

namespace Unfydqry

open LockedStore Prog SearchEngine

variable (env : Env)

/-- One field of a record, stored unless it is empty under the option set. -/
def FieldValue.overlay (o : NormalizeOptions) (bits : UInt8) (r : Int64) (f : FieldValue) :
    Overlay Int64 Text :=
  if (normalize env.unicode o f.text).isEmpty then fun _ => none
  else .set (packId bits r f.slot) (some f.text)

/-- A record: its range is cleared, then its fields are stored. -/
def recordOverlay (o : NormalizeOptions) (bits : UInt8) (r : Int64) (fields : List FieldValue) :
    Overlay Int64 Text :=
  (Overlay.clear (Sql.between (shlOf bits r) (hiOf bits r))).after
    (.last (fields.map (FieldValue.overlay env o bits r)))

/-- What an accepted call writes. -/
def Call.writes (o : NormalizeOptions) (bits : UInt8) : Call → Overlay Int64 Text
  | .index id text => .set id (some text)
  | .remove id => .set id none
  | .indexBatch items => .last (items.map fun item => .set item.id (some item.text))
  | .removeBatch ids => .last (ids.map fun id => .set id none)
  | .removeAll => fun _ => some none
  | .indexRecord r fields => recordOverlay env o bits r fields
  | .indexRecordsBatch records =>
    .last (records.map fun r => recordOverlay env o bits r.recordId r.fields)
  | .removeRecord r => .clear (Sql.between (shlOf bits r) (hiOf bits r))
  | _ => fun _ => none

/-- The calls that are not rejected for a record id or a slot. -/
def Call.Admitted (bits : UInt8) : Call → Prop
  | .indexRecord r fields => RecordOk bits r ∧ SlotsOk bits fields
  | .indexRecordsBatch records => RecordsOk bits records
  | .removeRecord r => RecordOk bits r
  | _ => True

instance (bits : UInt8) : DecidablePred (Call.Admitted bits)
  | .indexRecord _ _ => inferInstanceAs (Decidable (_ ∧ _))
  | .indexRecordsBatch _ => inferInstanceAs (Decidable (RecordsOk _ _))
  | .removeRecord _ => inferInstanceAs (Decidable (RecordOk _ _))
  | .index _ _ | .remove _ | .indexBatch _ | .removeBatch _ | .removeAll | .reindex
  | .changeFieldBits _ | .contains _ | .documentCount | .search _ _ | .searchPage _ _ _
  | .matchCount _ | .highlight _ _ _ _ | .containsRecord _ | .searchRecords _ _ _
  | .searchRecordsPage _ _ _ _ | .matchCountRecords _ _ | .highlightRecord _ _ _ _ _ =>
    isTrue trivial

/-- A call that leaves every text under its id or replaces it. -/
def Call.KeepsWidth : Call → Prop
  | .changeFieldBits _ => False
  | _ => True

namespace Catalog

variable {env}

theorem writes_putField (o : NormalizeOptions) (bits : UInt8) (r : Int64) (f : FieldValue) :
    Table.Writes (fun texts => putField env o bits r texts f) (f.overlay env o bits r) := by
  intro texts id
  unfold putField FieldValue.overlay
  split
  · rfl
  · exact Table.writes_insert _ _ texts id

theorem writes_putRecord (o : NormalizeOptions) (bits : UInt8) (r : Int64)
    (fields : List FieldValue) :
    Table.Writes (putRecord env o bits r fields) (recordOverlay env o bits r fields) :=
  (Table.writes_eraseWhere _).comp (Table.writes_foldl (writes_putField o bits r) fields)

theorem writes_putRecords (o : NormalizeOptions) (bits : UInt8)
    (records : List RecordIndexItem) :
    Table.Writes (putRecords env o bits records)
      (.last (records.map fun r => recordOverlay env o bits r.recordId r.fields)) := by
  have hrecord : ∀ r : RecordIndexItem,
      Table.Writes (fun texts => putRecord env o bits r.recordId r.fields texts)
        (recordOverlay env o bits r.recordId r.fields) :=
    fun r => writes_putRecord o bits r.recordId r.fields
  unfold putRecords
  exact Table.writes_foldl hrecord records

end Catalog

variable {env}

/-- What a call makes of the texts is what it writes. -/
theorem writes_keeps (env : Env) (e : SearchEngine) (bits : UInt8) {c : Call} (hc : c.KeepsWidth) :
    Table.Writes (fun texts => c.keeps env e bits texts) (c.writes env e.options bits) := by
  cases c with
  | index id text => exact Table.writes_insert id text
  | remove id => exact Table.writes_erase id
  | indexBatch items =>
    exact Table.writes_foldl (fun item => Table.writes_insert item.id item.text) items
  | removeBatch ids => exact Table.writes_foldl Table.writes_erase ids
  | removeAll =>
    intro texts id
    exact Table.lookup_empty id
  | indexRecord r fields => exact Catalog.writes_putRecord e.options bits r fields
  | indexRecordsBatch records =>
    exact Catalog.writes_putRecords e.options bits records
  | removeRecord r => exact Table.writes_eraseWhere _
  | changeFieldBits new => exact hc.elim
  | _ => exact Table.writes_id

theorem writes_calls (env : Env) (e : SearchEngine) (bits : UInt8) {calls : List Call}
    (hc : ∀ c ∈ calls, c.KeepsWidth) :
    Table.Writes (fun texts => calls.foldl (fun texts c => c.keeps env e bits texts) texts)
      (.last (calls.map fun c => c.writes env e.options bits)) := by
  induction calls with
  | nil => exact Table.writes_id
  | cons c calls ih =>
    rw [List.forall_mem_cons] at hc
    rw [List.map_cons, Overlay.last_cons]
    exact (writes_keeps env e bits hc.1).comp (ih hc.2)

namespace Index

theorem accepts_iff {s : Stamp} {texts : Catalog} {c : Call} (hc : c.KeepsWidth)
    (hm : c.Mutating) : (s.Accepts texts c ↔ c.Admitted s.width) ∧ s.next c = s := by
  cases c with
  | changeFieldBits new => exact hc.elim
  | indexRecord r fields => exact ⟨.rfl, rfl⟩
  | indexRecordsBatch records => exact ⟨.rfl, rfl⟩
  | removeRecord r => exact ⟨.rfl, rfl⟩
  | index _ _ => exact ⟨.rfl, rfl⟩
  | remove _ => exact ⟨.rfl, rfl⟩
  | indexBatch _ => exact ⟨.rfl, rfl⟩
  | removeBatch _ => exact ⟨.rfl, rfl⟩
  | removeAll => exact ⟨.rfl, rfl⟩
  | reindex => exact ⟨.rfl, rfl⟩
  | _ => exact hm.elim

theorem call_keepsWidth (s : Stamp) (strategy : SearchStrategy) (texts : Catalog) {c : Call}
    (hc : c.KeepsWidth) :
    (Index.opened s strategy texts).call env c =
      .opened s strategy (if c.Admitted s.width
        then c.keeps env (s.engine strategy) s.width texts else texts) := by
  by_cases hm : c.Mutating
  · obtain ⟨hiff, hnext⟩ := accepts_iff (s := s) hc hm
    by_cases hadm : c.Admitted s.width
    · rw [Index.call, if_pos (hiff.mpr hadm), if_pos hadm, hnext]
    · rw [Index.call, if_neg fun h => hadm (hiff.mp h), if_neg hadm]
  · obtain ⟨hnext, hkeeps⟩ := Stamp.read_keeps env s texts strategy hm
    rw [Index.call, hnext, hkeeps, ite_self, ite_self]

/-- The texts after calls on an open engine. -/
theorem run_calls (s : Stamp) (strategy : SearchStrategy) {calls : List Call}
    (hc : ∀ c ∈ calls, c.KeepsWidth) (texts : Catalog) :
    (Index.opened s strategy texts).run env (calls.map Action.call) =
      .opened s strategy ((calls.filter fun c => c.Admitted s.width).foldl
        (fun texts c => c.keeps env (s.engine strategy) s.width texts) texts) := by
  induction calls generalizing texts with
  | nil => rfl
  | cons c calls ih =>
    rw [List.forall_mem_cons] at hc
    rw [List.map_cons]
    change ((Index.opened s strategy texts).call env c).run env (calls.map Action.call) = _
    rw [call_keepsWidth s strategy texts hc.1, ih hc.2, List.filter_cons]
    by_cases hadm : c.Admitted s.width
    · simp only [hadm, decide_true, if_true, List.foldl_cons]
    · simp only [hadm, decide_false, if_false, Bool.false_eq_true]

end Index

/-- After any calls on an open engine that leave its width alone, rejected ones included, an id
holds what the last accepted call that wrote there left, or what it held before. -/
theorem last_write_wins (env : Env) (history : List Action) {o : OpenEngine}
    (ho : (Host.run env {} history).opened = some o) {calls : List Call}
    (hc : ∀ c ∈ calls, c.KeepsWidth) (id : Int64) :
    ((Host.run env {} history).run env (calls.map Action.call)).text id =
      (Overlay.last ((calls.filter fun c => c.Admitted o.fieldBits).map fun c =>
        c.writes env o.engine.options o.fieldBits)).read id
          ((Host.run env {} history).text id) := by
  obtain ⟨s, strategy, texts, _, hhost, rfl⟩ := Index.open_run ho
  rw [hhost, Index.host_run, Index.run_calls s strategy hc]
  have hkept : ∀ c ∈ calls.filter fun c => c.Admitted s.width, c.KeepsWidth :=
    fun c hm => hc c (List.mem_of_mem_filter hm)
  have hread := writes_calls env (s.engine strategy) s.width hkept texts id
  rw [Host.text, Host.text]
  show ((s.file env _).entries[id]?.bind Entry.raw) = _
  rw [Stamp.text_file, Catalog.at, hread]
  show _ = Overlay.read _ id ((s.file env texts).entries[id]?.bind Entry.raw)
  rw [Stamp.text_file]
  rfl

/-- A text written, replaced by a record's field and removed with the record. -/
theorem last_write_wins_record :
    ((Host.run .ascii {} [.reopen plainOptions]).run .ascii
      ([.index 257 ['x'], .indexRecord 1 [{ slot := 1, text := ['y'] }], .removeRecord (-1),
        .index 5 ['z']].map Action.call)).text 257 = some ['y'] := by
  have hopened : (Host.run .ascii {} [.reopen plainOptions]).opened =
      some { engine := plainEngine, fieldBits := 8 } := by decide +kernel
  rw [last_write_wins .ascii [.reopen plainOptions] hopened (by simp [Call.KeepsWidth])]
  decide +kernel

/-! ### Calls on different rows -/

section Rows

variable {o : NormalizeOptions} {bits : UInt8} {id : Int64}

theorem within_set {k : Int64} {v : Option Text} (h : Overlay.set k v id ≠ none) :
    k ≤ id ∧ id ≤ k := by
  have hk : id = k := by
    by_contra hne
    exact h (if_neg hne)
  rw [hk]
  exact ⟨Int64.le_refl _, Int64.le_refl _⟩

theorem within_clear {lo hi : Int64}
    (h : Overlay.clear (ν := Text) (Sql.between lo hi) id ≠ none) : lo ≤ id ∧ id ≤ hi := by
  by_contra hne
  apply h
  apply if_neg
  rw [Sql.between, Bool.and_eq_true, decide_eq_true_eq, decide_eq_true_eq]
  exact hne

/-- A record writes its own range only. -/
theorem within_record (hb : ValidBits bits) {r : Int64} {fields : List FieldValue}
    (hr : RecordOk bits r) (hs : SlotsOk bits fields)
    (h : recordOverlay env o bits r fields id ≠ none) :
    shlOf bits r ≤ id ∧ id ≤ hiOf bits r := by
  by_cases hlast : Overlay.last (fields.map (FieldValue.overlay env o bits r)) id = none
  · apply within_clear
    intro hnone
    apply h
    simp only [recordOverlay, Overlay.after, hlast, hnone, Option.or_none]
  · obtain ⟨u, hu, huid⟩ := Overlay.exists_of_last hlast
    obtain ⟨f, hf, rfl⟩ := List.mem_map.mp hu
    unfold FieldValue.overlay at huid
    split at huid
    · exact absurd rfl huid
    · have hbetween := packId_between hb hr.1 hr.2 (hs.1 f hf)
      rw [Sql.between, Bool.and_eq_true, decide_eq_true_eq, decide_eq_true_eq] at hbetween
      obtain ⟨hlo, hhi⟩ := within_set huid
      exact ⟨Int64.le_trans hbetween.1 hlo, Int64.le_trans hhi hbetween.2⟩

/-- The rows a call writes are those of its access. -/
theorem writes_within (hb : ValidBits bits) {c : Call} {ranges : List (Int64 × Int64)}
    (hacc : c.access bits = .rows ranges) (hadm : c.Admitted bits)
    (hw : c.writes env o bits id ≠ none) : ∃ a ∈ ranges, a.1 ≤ id ∧ id ≤ a.2 := by
  cases c with
  | index k text =>
    obtain rfl := Access.rows.inj hacc
    exact ⟨(k, k), List.mem_singleton.mpr rfl, within_set hw⟩
  | remove k =>
    obtain rfl := Access.rows.inj hacc
    exact ⟨(k, k), List.mem_singleton.mpr rfl, within_set hw⟩
  | indexBatch items =>
    obtain rfl := Access.rows.inj hacc
    obtain ⟨u, hu, huid⟩ := Overlay.exists_of_last hw
    obtain ⟨item, hitem, rfl⟩ := List.mem_map.mp hu
    exact ⟨_, List.mem_map.mpr ⟨item, hitem, rfl⟩, within_set huid⟩
  | removeBatch ids =>
    obtain rfl := Access.rows.inj hacc
    obtain ⟨u, hu, huid⟩ := Overlay.exists_of_last hw
    obtain ⟨k, hk, rfl⟩ := List.mem_map.mp hu
    exact ⟨_, List.mem_map.mpr ⟨k, hk, rfl⟩, within_set huid⟩
  | indexRecord r fields =>
    obtain rfl := Access.rows.inj hacc
    exact ⟨_, List.mem_singleton.mpr rfl, within_record hb hadm.1 hadm.2 hw⟩
  | indexRecordsBatch records =>
    obtain rfl := Access.rows.inj hacc
    obtain ⟨u, hu, huid⟩ := Overlay.exists_of_last hw
    obtain ⟨r, hr, rfl⟩ := List.mem_map.mp hu
    exact ⟨_, List.mem_map.mpr ⟨r, hr, rfl⟩,
      within_record hb (hadm r hr).1 (hadm r hr).2 huid⟩
  | removeRecord r =>
    obtain rfl := Access.rows.inj hacc
    exact ⟨_, List.mem_singleton.mpr rfl, within_clear hw⟩
  | _ => cases hacc

theorem keepsWidth_of_rows {c : Call} {ranges : List (Int64 × Int64)}
    (hacc : c.access bits = .rows ranges) : c.KeepsWidth := by
  cases c with
  | changeFieldBits new => cases hacc
  | _ => trivial

theorem not_mutating_of_none {c : Call} (hacc : c.access bits = .none) : ¬ c.Mutating := by
  intro hm
  cases c with
  | index _ _ => cases hacc
  | remove _ => cases hacc
  | indexBatch _ => cases hacc
  | removeBatch _ => cases hacc
  | removeAll => cases hacc
  | indexRecord _ _ => cases hacc
  | indexRecordsBatch _ => cases hacc
  | removeRecord _ => cases hacc
  | reindex => cases hacc
  | changeFieldBits _ => cases hacc
  | _ => exact hm

theorem writes_disjoint (env : Env) (o : NormalizeOptions) (hb : ValidBits bits)
    {c c' : Call} {l l' : List (Int64 × Int64)}
    (hl : c.access bits = .rows l) (hl' : c'.access bits = .rows l')
    (hapart : ∀ a ∈ l, ∀ b ∈ l', a.2 < b.1 ∨ b.2 < a.1) (hadm : c.Admitted bits)
    (hadm' : c'.Admitted bits) : (c.writes env o bits).Disjoint (c'.writes env o bits) := by
  intro id
  by_contra hboth
  rw [not_or] at hboth
  obtain ⟨a, ha, halo, hahi⟩ := writes_within hb hl hadm hboth.1
  obtain ⟨b, hb', hblo, hbhi⟩ := writes_within hb hl' hadm' hboth.2
  have hsep := hapart a ha b hb'
  simp only [Int64.lt_iff_toInt_lt, Int64.le_iff_toInt_le] at hsep halo hahi hblo hbhi
  omega

end Rows

namespace Index

/-- A call that only reads leaves the index. -/
theorem call_read (i : Index) {c : Call} (hc : ¬ c.Mutating) : i.call env c = i := by
  cases i with
  | opened s strategy texts =>
    obtain ⟨hnext, hkeeps⟩ := Stamp.read_keeps env s texts strategy hc
    rw [Index.call, hnext, hkeeps, ite_self]
  | _ => rfl

theorem call_comm (i : Index) (c c' : Call)
    (hapart : ∀ s strategy texts, i = .opened s strategy texts →
      (c.access s.width).Apart (c'.access s.width)) :
    (i.call env c).call env c' = (i.call env c').call env c := by
  cases i with
  | opened s strategy texts =>
    have happ := hapart s strategy texts rfl
    by_cases hread : ¬ c.Mutating
    · rw [call_read _ hread, call_read _ hread]
    by_cases hread' : ¬ c'.Mutating
    · rw [call_read _ hread', call_read _ hread']
    cases hl : c.access s.width with
    | none => exact absurd (not_mutating_of_none hl) hread
    | all =>
      rw [hl] at happ
      cases hl' : c'.access s.width with
      | none => exact absurd (not_mutating_of_none hl') hread'
      | rows l' => rw [hl'] at happ; exact happ.elim
      | all => rw [hl'] at happ; exact happ.elim
    | rows l =>
      rw [hl] at happ
      cases hl' : c'.access s.width with
      | none => exact absurd (not_mutating_of_none hl') hread'
      | all => rw [hl'] at happ; exact happ.elim
      | rows l' =>
        rw [hl'] at happ
        have hc := keepsWidth_of_rows hl
        have hc' := keepsWidth_of_rows hl'
        rw [call_keepsWidth s strategy texts hc, call_keepsWidth s strategy texts hc',
          call_keepsWidth s strategy _ hc, call_keepsWidth s strategy _ hc']
        by_cases hadm : c.Admitted s.width
        · by_cases hadm' : c'.Admitted s.width
          · rw [if_pos hadm, if_pos hadm', if_pos hadm, if_pos hadm']
            have hdisjoint := writes_disjoint env s.options s.valid hl hl' happ hadm
              hadm'
            have hcomm := (writes_keeps env (s.engine strategy) s.width hc).comm
              (writes_keeps env (s.engine strategy) s.width hc') hdisjoint texts
            rw [hcomm]
          · rw [if_neg hadm', if_neg hadm']
        · rw [if_neg hadm, if_neg hadm]
  | _ => rfl

end Index

/-- After any history, two calls on different rows can be made in either order: the host is
the same, whether they are accepted or not. -/
theorem apart_calls_commute (env : Env) (history : List Action) {c c' : Call}
    (hapart : ∀ o, (Host.run env {} history).opened = some o →
      (c.access o.fieldBits).Apart (c'.access o.fieldBits)) :
    (Host.run env {} history).run env [.call c, .call c'] =
      (Host.run env {} history).run env [.call c', .call c] := by
  have hrun : Host.run env {} history = (Index.run env .fresh history).host env :=
    Index.host_run history .fresh
  rw [hrun] at hapart
  rw [hrun, Index.host_run, Index.host_run]
  have hcomm : ((Index.run env .fresh history).call env c).call env c' =
      ((Index.run env .fresh history).call env c').call env c := by
    apply Index.call_comm
    intro s strategy texts hi
    rw [hi] at hapart
    exact hapart _ rfl
  show (((Index.run env .fresh history).call env c).call env c').host env =
    (((Index.run env .fresh history).call env c').call env c).host env
  rw [hcomm]

/-- Two neighbouring records. -/
theorem apart_calls_commute_records :
    let h := Host.run .ascii {} [.reopen plainOptions]
    h.run .ascii
        [.call (.indexRecord 1 [{ slot := 255, text := ['a'] }]), .call (.removeRecord 2)] =
      h.run .ascii [.call (.removeRecord 2),
        .call (.indexRecord 1 [{ slot := 255, text := ['a'] }])] := by
  apply apart_calls_commute
  intro o ho
  have hopened : (Host.run .ascii {} [.reopen plainOptions]).opened =
      some { engine := plainEngine, fieldBits := 8 } := by decide +kernel
  rw [hopened] at ho
  obtain rfl := Option.some_inj.mp ho
  decide +kernel

end Unfydqry
