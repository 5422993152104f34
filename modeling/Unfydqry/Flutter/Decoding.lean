import Unfydqry.Flutter.Client

/-! # What the plugin reads of the messages of the Dart class

Every message of the Dart class has the arguments its method asks for, and they decode to
the values that were sent. A slot keeps its low byte; a limit or a width goes through an
`Int` of the platform. -/

namespace Unfydqry.Flutter

def DartField.core (f : DartField) : FieldValue := { slot := toUByte f.slot, text := f.text }

def DartRecord.core (r : DartRecord) : RecordIndexItem :=
  { recordId := r.recordId, fields := r.fields.map DartField.core }

/-- An `Int` argument of the plugin. -/
def asInt (p : Platform) (i : Int64) : Read Int64 :=
  match p with
  | .android => if fits32 i then .ok i else .error .plugin
  | .ios => .ok i

/-- The call of the engine that a method of the Dart class makes. -/
def ApiCall.core (p : Platform) : ApiCall → Read Call
  | .index id text => .ok (.index id text)
  | .indexBatch items => .ok (.indexBatch items)
  | .remove id => .ok (.remove id)
  | .removeBatch ids => .ok (.removeBatch ids)
  | .search query limit => do
    let limit ← asInt p limit
    let limit ← toUInt p limit
    pure (.search query limit)
  | .indexRecord recordId fields => .ok (.indexRecord recordId (fields.map DartField.core))
  | .indexRecordsBatch records => .ok (.indexRecordsBatch (records.map DartRecord.core))
  | .removeRecord recordId => .ok (.removeRecord recordId)
  | .searchRecords query limit fieldsPerRecord => do
    let limit ← asInt p limit
    let fieldsPerRecord ← asInt p fieldsPerRecord
    let limit ← toUInt p limit
    let fieldsPerRecord ← toUInt p fieldsPerRecord
    pure (.searchRecords query limit fieldsPerRecord)
  | .highlight id query before after => .ok (.highlight query id before after)
  | .changeFieldBits newFieldBits => do
    let n ← asInt p newFieldBits
    pure (.changeFieldBits (toUByte n))

def ApiOpen.constructor : ApiOpen → Constructor
  | .open => .new
  | .openWithOptions o s =>
    .withOptions { normalize := o, strategy := s, fieldBits := none }
  | .openWithOptionsRebuilding o s =>
    .withOptionsRebuilding { normalize := o, strategy := s, fieldBits := none }

/-! ### Lists and maps -/

variable {α β : Type} (p : Platform)

theorem collect_map {f : Args → Read (Option α)} {g : β → Args} {h : β → α}
    (hf : ∀ b, f (g b) = .ok (some (h b))) (bs : List β) :
    collect f (bs.map fun b => .map (g b)) = .ok (bs.map h) := by
  induction bs with
  | nil => rfl
  | cons b bs ih =>
    simp only [List.map_cons, collect, asMap, pure_bind, hf, ih]
    rfl

theorem all_maps (g : β → Args) (bs : List β) :
    ((bs.map fun b => Wire.map (g b)).all fun x => (asMap x).isSome) = true := by
  rw [List.all_map]
  exact List.all_eq_true.mpr fun _ _ => rfl

theorem listArg_sent {args : Args} {k : Key} {xs : List Wire}
    (h : Args.get args k = some (.list xs)) : listArg p args k = .ok xs := by
  rw [listArg, h]

/-- A list of maps passes the check of either side. -/
theorem mapsArg_sent {args : Args} {k : Key} (g : β → Args) (bs : List β)
    (h : Args.get args k = some (.list (bs.map fun b => .map (g b)))) :
    mapsArg p args k = .ok (bs.map fun b => .map (g b)) := by
  rw [mapsArg, listArg_sent p h]
  cases p with
  | android => rfl
  | ios => exact if_pos (all_maps g bs)

theorem number_int (i : Int64) : number p (.int i) = some i := by
  cases p <;> rfl

theorem idList_sent (ids : List Int64) : idList p (ids.map Wire.int) = ids := by
  rw [idList, List.filterMap_map]
  have hid : number p ∘ Wire.int = some := funext (number_int p)
  rw [hid, List.filterMap_some]

theorem numberField_int {kvs : Args} {k : Key} {i : Int64} (h : Args.get kvs k = some (.int i)) :
    numberField p kvs k = some i := by
  rw [numberField, h]
  exact number_int p i

theorem indexItem_sent (item : IndexItem) :
    indexItem p [(.id, .int item.id), (.text, .str item.text)] = .ok (some item) := by
  rw [indexItem, numberField_int p rfl]
  rfl

theorem fieldValue_sent (f : DartField) :
    fieldValue p [(.slot, .int f.slot), (.text, .str f.text)] = .ok (some f.core) := by
  rw [fieldValue, numberField_int p rfl]
  rfl

theorem recordFields_sent (r : DartRecord) :
    recordFields p [(.recordId, .int r.recordId), (.fields, .list (r.fields.map fieldMap))] =
      .ok (some (r.fields.map DartField.core)) := by
  show (if p = .ios ∧ ¬ ((r.fields.map fieldMap).all fun x => (asMap x).isSome) then .ok none
    else some <$> collect (fieldValue p) (r.fields.map fieldMap)) = _
  have hall : ((r.fields.map fieldMap).all fun x => (asMap x).isSome) = true :=
    all_maps _ r.fields
  have hcollect : collect (fieldValue p) (r.fields.map fieldMap) = _ :=
    collect_map (fieldValue_sent p) r.fields
  rw [if_neg fun h => h.2 hall, hcollect]
  rfl

theorem recordIndexItem_sent (r : DartRecord) :
    recordIndexItem p [(.recordId, .int r.recordId), (.fields, .list (r.fields.map fieldMap))] =
      .ok (some r.core) := by
  rw [recordIndexItem, numberField_int p rfl]
  simp only [recordFields_sent]
  rfl

theorem normalizeOptions_sent {args : Args} {o : NormalizeOptions}
    (h : Args.get args .options = some (optionsMap o)) : normalizeOptions p args = .ok o := by
  rw [normalizeOptions, h]
  cases p <;> rfl

theorem strategyOf_name (s : SearchStrategy) : strategyOf (strategyName s).toList = some s := by
  cases s <;> decide

theorem engineConfig_sent {args : Args} {o : NormalizeOptions} {s : SearchStrategy}
    (ho : Args.get args .options = some (optionsMap o))
    (hs : Args.get args .strategy = some (.str (strategyName s).toList)) :
    engineConfig p args = .ok { normalize := o, strategy := s, fieldBits := none } := by
  have hname : stringArg p args .strategy = .ok (strategyName s).toList := by
    rw [stringArg, hs]
  simp only [engineConfig, normalizeOptions_sent p ho, hname, bind, Except.bind, strategyOf_name]
  rfl

/-! ### Messages -/

/-- The numbers a handle can have. -/
def Platform.handles : Platform → ℕ
  | .android => 2 ^ 31
  | .ios => 2 ^ 63

theorem intArg_sent {args : Args} {k : Key} {i : Int64}
    (h : Args.get args k = some (.int i)) : intArg p args k = asInt p i := by
  unfold intArg
  rw [h]
  cases p <;> rfl

theorem longArg_sent {args : Args} {k : Key} {i : Int64}
    (h : Args.get args k = some (.int i)) : longArg p args k = .ok i := by
  have hi : (Args.get args k).bind (number p) = some i := by
    rw [h]
    exact number_int p i
  rw [longArg, hi]

theorem stringArg_sent {args : Args} {k : Key} {s : Text}
    (h : Args.get args k = some (.str s)) : stringArg p args k = .ok s := by
  rw [stringArg, h]

theorem asInt_handle {h : Int64} (h0 : 0 ≤ h.toInt) (hp : h.toInt < p.handles) :
    asInt p h = .ok h := by
  cases p with
  | android =>
    have hfit : fits32 h := ⟨by omega, by simpa [Platform.handles] using hp⟩
    exact if_pos hfit
  | ios => rfl

namespace Plugin

variable (env : Env) (st : Plugin)

/-- The call of a decoded message on the engine under its handle. -/
def forward (handle : Int64) (e : Engine) : Read Call → Plugin × Response
  | .ok c => st.call env handle e c
  | .error f => (st, .error f)

variable {p st}

theorem engine_sent {args : Args} {handle : Int64} {e : Engine}
    (hh : intArg p args .handle = .ok handle) (he : st.engines[handle]? = some e) :
    st.engine p args = .ok (handle, e) := by
  simp only [engine, hh, bind, Except.bind, he]
  rfl

theorem serve_sent {args : Args} {handle : Int64} {e : Engine}
    (hh : intArg p args .handle = .ok handle) (he : st.engines[handle]? = some e)
    (read : Read α) (convert : α → Read Call) :
    st.serve p env args read convert = st.forward env handle e (read >>= convert) := by
  have hengine := engine_sent hh he
  rw [serve]
  cases read with
  | error f => rfl
  | ok a =>
    simp only [hengine, bind, Except.bind]
    cases convert a <;> rfl

theorem onMethodCall_call {handle : Int64} {e : Engine} (h0 : 0 ≤ handle.toInt)
    (hp : handle.toInt < p.handles) (he : st.engines[handle]? = some e) (c : ApiCall) :
    st.onMethodCall p env (Sent.call handle c).message =
      st.forward env handle e (c.core p) := by
  have hh : intArg p (Sent.call handle c).message.args .handle = .ok handle :=
    (intArg_sent p rfl).trans (asInt_handle p h0 hp)
  cases c with
  | index id text =>
    refine (serve_sent env hh he _ _).trans ?_
    rw [longArg_sent p (i := id) rfl, stringArg_sent p (s := text) rfl]
    rfl
  | indexBatch items =>
    refine (serve_sent env hh he _ _).trans ?_
    have hitems : mapsArg p (Sent.call handle (.indexBatch items)).message.args .items = _ :=
      mapsArg_sent p _ items rfl
    rw [hitems]
    show st.forward env handle e
      (collect (indexItem p) _ >>= fun items => pure (.indexBatch items)) = _
    rw [collect_map (indexItem_sent p), List.map_id']
    rfl
  | remove id =>
    refine (serve_sent env hh he _ _).trans ?_
    rw [longArg_sent p (i := id) rfl]
    rfl
  | removeBatch ids =>
    refine (serve_sent env hh he _ _).trans ?_
    have hids : listArg p (Sent.call handle (.removeBatch ids)).message.args .ids =
        .ok (ids.map Wire.int) := listArg_sent p rfl
    rw [hids]
    show st.forward env handle e (.ok (.removeBatch (idList p (ids.map Wire.int)))) = _
    rw [idList_sent]
    rfl
  | search query limit =>
    refine (serve_sent env hh he _ _).trans ?_
    rw [stringArg_sent p (s := query) rfl, intArg_sent p (i := limit) rfl]
    simp only [ApiCall.core, bind_assoc, pure_bind]
    rfl
  | indexRecord recordId fields =>
    refine (serve_sent env hh he _ _).trans ?_
    have hfields : mapsArg p (Sent.call handle (.indexRecord recordId fields)).message.args
        .fields = _ := mapsArg_sent p _ fields rfl
    rw [longArg_sent p (i := recordId) rfl, hfields]
    show st.forward env handle e
      (collect (fieldValue p) _ >>= fun fields => pure (.indexRecord recordId fields)) = _
    rw [collect_map (fieldValue_sent p)]
    rfl
  | indexRecordsBatch records =>
    refine (serve_sent env hh he _ _).trans ?_
    have hrecords : mapsArg p (Sent.call handle (.indexRecordsBatch records)).message.args
        .records = _ := mapsArg_sent p _ records rfl
    rw [hrecords]
    show st.forward env handle e
      (collect (recordIndexItem p) _ >>= fun records => pure (.indexRecordsBatch records)) = _
    rw [collect_map (recordIndexItem_sent p)]
    rfl
  | removeRecord recordId =>
    refine (serve_sent env hh he _ _).trans ?_
    rw [longArg_sent p (i := recordId) rfl]
    rfl
  | searchRecords query limit fieldsPerRecord =>
    refine (serve_sent env hh he _ _).trans ?_
    rw [stringArg_sent p (s := query) rfl, intArg_sent p (i := limit) rfl,
      intArg_sent p (i := fieldsPerRecord) rfl]
    simp only [ApiCall.core, bind_assoc, pure_bind]
    rfl
  | highlight id query before after =>
    refine (serve_sent env hh he _ _).trans ?_
    rw [stringArg_sent p (s := query) rfl, longArg_sent p (i := id) rfl,
      stringArg_sent p (s := before) rfl, stringArg_sent p (s := after) rfl]
    rfl
  | changeFieldBits newFieldBits =>
    refine (serve_sent env hh he _ _).trans ?_
    cases p with
    | android =>
      show st.forward env handle e (intArg .android _ .newFieldBits >>= fun n =>
        .ok (.changeFieldBits (toUByte n))) = _
      rw [intArg_sent .android (i := newFieldBits) rfl]
      rfl
    | ios =>
      show st.forward env handle e (longArg .ios _ .newFieldBits >>= fun n =>
        .ok (.changeFieldBits (toUByte n))) = _
      rw [longArg_sent .ios (i := newFieldBits) rfl]
      rfl

variable (p st)

theorem onMethodCall_open (dbPath : Text) (o : ApiOpen) :
    st.onMethodCall p env (Sent.open dbPath o).message =
      st.construct p env dbPath o.constructor := by
  cases o with
  | «open» => rfl
  | openWithOptions o s =>
    have hopening : opening p (Sent.open dbPath (.openWithOptions o s)).message.args
        .withOptions = .ok (dbPath, (ApiOpen.openWithOptions o s).constructor) := by
      rw [opening, stringArg_sent p (s := dbPath) rfl,
        engineConfig_sent p (o := o) (s := s) rfl rfl]
      rfl
    simp only [onMethodCall, Sent.message] at hopening ⊢
    rw [hopening]
  | openWithOptionsRebuilding o s =>
    have hopening : opening p (Sent.open dbPath (.openWithOptionsRebuilding o s)).message.args
        .withOptionsRebuilding =
          .ok (dbPath, (ApiOpen.openWithOptionsRebuilding o s).constructor) := by
      rw [opening, stringArg_sent p (s := dbPath) rfl,
        engineConfig_sent p (o := o) (s := s) rfl rfl]
      rfl
    simp only [onMethodCall, Sent.message] at hopening ⊢
    rw [hopening]

theorem onMethodCall_normalize (input : Text) (o : NormalizeOptions) :
    st.onMethodCall p env (Sent.ask (.normalize input o)).message =
      (st, .success (.string (some (normalize env.unicode o input)))) := by
  simp only [onMethodCall, Sent.message]
  rw [stringArg_sent p (s := input) rfl, normalizeOptions_sent p (o := o) rfl]
  rfl

theorem onMethodCall_reindexStatus (dbPath : Text) (o : NormalizeOptions) :
    st.onMethodCall p env (Sent.ask (.reindexStatus dbPath o)).message =
      st.reindexStatus env dbPath o := by
  simp only [onMethodCall, Sent.message]
  rw [stringArg_sent p (s := dbPath) rfl, normalizeOptions_sent p (o := o) rfl]
  rfl

variable {p}

theorem onMethodCall_dispose {handle : Int64} (h0 : 0 ≤ handle.toInt)
    (hp : handle.toInt < p.handles) :
    st.onMethodCall p env (Sent.dispose handle).message =
      ({ st with engines := st.engines.erase handle }, .success .null) := by
  simp only [onMethodCall, Sent.message]
  rw [intArg_sent p (i := handle) rfl, asInt_handle p h0 hp]

end Plugin

end Unfydqry.Flutter
