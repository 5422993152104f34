import Unfydqry.IndexInvariant

/-! # Regenerating an index and feeding it again

`index_record` decides at write time which fields are stored, by their form under the
options of the time; `reindex` keeps the ids and renews their forms. The two agree on a
history just when both option sets agree on which of the fields it leaves are empty. -/

namespace Unfydqry

open LockedStore Prog SearchEngine

/-- The calls that write documents or records. -/
def Call.Writes : Call → Prop
  | .index .. | .remove .. | .indexBatch .. | .removeBatch .. | .removeAll | .indexRecord ..
  | .indexRecordsBatch .. | .removeRecord .. => True
  | _ => False

/-- What a write does to the catalog of raw texts. -/
def Catalog.write (env : Env) (o : NormalizeOptions) (bits : UInt8) (texts : Catalog) :
    Call → Catalog
  | .index id text => texts.insert id text
  | .remove id => texts.erase id
  | .indexBatch items => Catalog.putItems items texts
  | .removeBatch ids => Catalog.dropIds ids texts
  | .removeAll => ∅
  | .indexRecord r fields =>
    if RecordOk bits r ∧ SlotsOk bits fields then Catalog.putRecord env o bits r fields texts
    else texts
  | .indexRecordsBatch records =>
    if RecordsOk bits records then
      Catalog.putRecords env o bits records texts
    else texts
  | .removeRecord r =>
    if RecordOk bits r then Catalog.clearRange (shlOf bits r) (hiOf bits r) texts else texts
  | _ => texts

/-- A text a host has fed, and whether as a field of a record. -/
structure Feed where
  text : Text
  field : Bool
  deriving Repr, DecidableEq

/-- The texts a history leaves, by id, whether they are stored or skipped as empty. -/
abbrev Feeds := Table Int64 Feed

namespace Feeds

def putField (bits : UInt8) (recordId : Int64) (feeds : Feeds) (f : FieldValue) : Feeds :=
  feeds.insert (packId bits recordId f.slot) { text := f.text, field := true }

def putRecord (bits : UInt8) (recordId : Int64) (fields : List FieldValue) (feeds : Feeds) :
    Feeds :=
  fields.foldl (putField bits recordId)
    (Table.eraseWhere (Sql.between (shlOf bits recordId) (hiOf bits recordId)) feeds)

def write (bits : UInt8) (feeds : Feeds) : Call → Feeds
  | .index id text => feeds.insert id { text := text, field := false }
  | .remove id => feeds.erase id
  | .indexBatch items =>
    items.foldl (fun feeds item => feeds.insert item.id { text := item.text, field := false }) feeds
  | .removeBatch ids => ids.foldl (fun feeds id => feeds.erase id) feeds
  | .removeAll => ∅
  | .indexRecord r fields =>
    if RecordOk bits r ∧ SlotsOk bits fields then putRecord bits r fields feeds else feeds
  | .indexRecordsBatch records =>
    if RecordsOk bits records then
      records.foldl (fun feeds r => putRecord bits r.recordId r.fields feeds) feeds
    else feeds
  | .removeRecord r =>
    if RecordOk bits r then Table.eraseWhere (Sql.between (shlOf bits r) (hiOf bits r)) feeds
    else feeds
  | _ => feeds

/-- The texts a history leaves behind on a fresh index. -/
def ofHistory (bits : UInt8) (history : List Call) : Feeds := history.foldl (write bits) ∅

end Feeds

/-- A field that is empty once normalized is not stored. -/
def Feed.Kept (env : Env) (o : NormalizeOptions) (x : Feed) : Prop :=
  x.field = true → normalize env.unicode o x.text ≠ []

instance (env : Env) (o : NormalizeOptions) : DecidablePred (Feed.Kept env o) := fun _ =>
  inferInstanceAs (Decidable (_ → _))

/-- A catalog holds the kept texts of a history. -/
def Stores (env : Env) (o : NormalizeOptions) (feeds : Feeds) (texts : Catalog) : Prop :=
  ∀ id : Int64, texts[id]? = (feeds[id]?.filter fun x => x.Kept env o).map Feed.text

namespace Stores

variable {env : Env} {o : NormalizeOptions} {feeds : Feeds} {texts : Catalog} {bits : UInt8}

theorem insert (h : Stores env o feeds texts) (id : Int64) (text : Text) :
    Stores env o (feeds.insert id { text := text, field := false }) (texts.insert id text) := by
  intro a
  rw [Table.lookup_insert, Table.lookup_insert]
  by_cases ha : a = id
  · simp [ha, Feed.Kept]
  · rw [if_neg ha, if_neg ha]
    exact h a

theorem erase (h : Stores env o feeds texts) (id : Int64) :
    Stores env o (feeds.erase id) (texts.erase id) := by
  intro a
  rw [Table.lookup_erase, Table.lookup_erase]
  by_cases ha : a = id
  · rw [if_pos ha, if_pos ha]
    rfl
  · rw [if_neg ha, if_neg ha]
    exact h a

theorem empty : Stores env o ∅ ∅ := by
  intro a
  rw [Table.lookup_empty, Table.lookup_empty]
  rfl

theorem eraseWhere (h : Stores env o feeds texts) (p : Int64 → Bool) :
    Stores env o (Table.eraseWhere p feeds) (Table.eraseWhere p texts) := by
  intro a
  rw [Table.lookup_eraseWhere, Table.lookup_eraseWhere]
  split
  · rfl
  · exact h a

theorem foldl {α : Type} {g : Feeds → α → Feeds} {g' : Catalog → α → Catalog}
    (hstep : ∀ feeds texts a, Stores env o feeds texts → Stores env o (g feeds a) (g' texts a))
    (as : List α) (h : Stores env o feeds texts) :
    Stores env o (as.foldl g feeds) (as.foldl g' texts) := by
  induction as generalizing feeds texts with
  | nil => exact h
  | cons a as ih => exact ih (hstep _ _ a h)

theorem putField (h : Stores env o feeds texts) (r : Int64) (f : FieldValue)
    (hfree : texts[packId bits r f.slot]? = none) :
    Stores env o (Feeds.putField bits r feeds f) (Catalog.putField env o bits r texts f) := by
  intro a
  unfold Feeds.putField Catalog.putField
  rw [Table.lookup_insert]
  by_cases hempty : normalize env.unicode o f.text = []
  · rw [if_pos (List.isEmpty_iff.mpr hempty)]
    by_cases ha : a = packId bits r f.slot
    · rw [if_pos ha, ha, hfree]
      simp [Feed.Kept, hempty]
    · rw [if_neg ha]
      exact h a
  · rw [if_neg (fun he => hempty (List.isEmpty_iff.mp he)), Table.lookup_insert]
    by_cases ha : a = packId bits r f.slot
    · simp [ha, Feed.Kept, hempty]
    · rw [if_neg ha, if_neg ha]
      exact h a

/-- The fields of a record: the ids of distinct slots are distinct, so each is free. -/
theorem putFields (hb : ValidBits bits) {r : Int64} (hr : RecordOk bits r)
    (fields : List FieldValue) (hs : SlotsOk bits fields) (h : Stores env o feeds texts)
    (hfree : ∀ f ∈ fields, texts[packId bits r f.slot]? = none) :
    Stores env o (fields.foldl (Feeds.putField bits r) feeds)
      (fields.foldl (Catalog.putField env o bits r) texts) := by
  induction fields generalizing feeds texts with
  | nil => exact h
  | cons f fields ih =>
    obtain ⟨hfit, hnodup⟩ := hs
    rw [List.map_cons, List.nodup_cons] at hnodup
    rw [List.forall_mem_cons] at hfit hfree
    refine ih ⟨hfit.2, hnodup.2⟩ (h.putField r f hfree.1) fun g hg => ?_
    have hne : packId bits r g.slot ≠ packId bits r f.slot := by
      intro heq
      have hslot := packId_injective hb hr.1 hr.2 (hfit.2 g hg) hfit.1 heq
      exact hnodup.1 (List.mem_map.mpr ⟨g, hg, hslot⟩)
    unfold Catalog.putField
    split
    · exact hfree.2 g hg
    · rw [Table.lookup_insert, if_neg hne]
      exact hfree.2 g hg

theorem putRecord (hb : ValidBits bits) {r : Int64} (hr : RecordOk bits r)
    {fields : List FieldValue} (hs : SlotsOk bits fields) (h : Stores env o feeds texts) :
    Stores env o (Feeds.putRecord bits r fields feeds)
      (Catalog.putRecord env o bits r fields texts) := by
  have hclear := h.eraseWhere (Sql.between (shlOf bits r) (hiOf bits r))
  refine putFields hb hr fields hs hclear fun f hf => ?_
  rw [Catalog.clearRange, Table.lookup_eraseWhere, if_pos]
  exact packId_between hb hr.1 hr.2 (hs.1 f hf)

theorem putRecords (hb : ValidBits bits) (records : List RecordIndexItem)
    (hok : RecordsOk bits records) (h : Stores env o feeds texts) :
    Stores env o
      (records.foldl (fun feeds r => Feeds.putRecord bits r.recordId r.fields feeds) feeds)
      (Catalog.putRecords env o bits records texts) := by
  unfold Catalog.putRecords
  induction records generalizing feeds texts with
  | nil => exact h
  | cons r records ih =>
    rw [RecordsOk, List.forall_mem_cons] at hok
    exact ih hok.2 (h.putRecord hb hok.1.1 hok.1.2)

/-- One write keeps the catalog at the kept texts of the history. -/
theorem write (hb : ValidBits bits) (h : Stores env o feeds texts) {c : Call} (hc : c.Writes) :
    Stores env o (Feeds.write bits feeds c) (Catalog.write env o bits texts c) := by
  cases c with
  | index id text => exact h.insert id text
  | remove id => exact h.erase id
  | indexBatch items => exact foldl (fun _ _ item hi => hi.insert item.id item.text) items h
  | removeBatch ids => exact foldl (fun _ _ id hi => hi.erase id) ids h
  | removeAll => exact empty
  | indexRecord r fields =>
    simp only [Feeds.write, Catalog.write]
    split
    · rename_i hok
      exact h.putRecord hb hok.1 hok.2
    · exact h
  | indexRecordsBatch records =>
    simp only [Feeds.write, Catalog.write]
    split
    · rename_i hok
      exact h.putRecords hb records hok
    · exact h
  | removeRecord r =>
    simp only [Feeds.write, Catalog.write]
    split
    · exact h.eraseWhere _
    · exact h
  | _ => exact hc.elim

theorem history (hb : ValidBits bits) (calls : List Call) (hw : ∀ c ∈ calls, c.Writes)
    (h : Stores env o feeds texts) :
    Stores env o (calls.foldl (Feeds.write bits) feeds)
      (calls.foldl (Catalog.write env o bits) texts) := by
  induction calls generalizing feeds texts with
  | nil => exact h
  | cons c calls ih =>
    rw [List.forall_mem_cons] at hw
    exact ih hw.2 (h.write hb hw.1)

theorem texts_eq_iff {o' : NormalizeOptions} {texts' : Catalog} (h : Stores env o feeds texts)
    (h' : Stores env o' feeds texts') :
    texts = texts' ↔ ∀ (id : Int64) x, feeds[id]? = some x → x.field = true →
      (normalize env.unicode o x.text = [] ↔ normalize env.unicode o' x.text = []) := by
  constructor
  · intro heq id x hx hfield
    have hid := h id
    have hkept : ∀ o, ((some x).filter fun x => x.Kept env o).isSome = decide (x.Kept env o) := by
      intro o
      by_cases hk : x.Kept env o <;> simp [Option.filter, hk]
    rw [heq, h' id, hx] at hid
    have hsome := congrArg Option.isSome hid
    rw [Option.isSome_map, Option.isSome_map, hkept, hkept, decide_eq_decide] at hsome
    have hiff : (normalize env.unicode o' x.text ≠ [] ↔ normalize env.unicode o x.text ≠ []) := by
      simpa only [Feed.Kept, hfield, forall_const] using hsome
    exact (not_iff_not.mp hiff).symm
  · intro hagree
    refine Table.ext_lookup fun id => ?_
    rw [h id, h' id]
    cases hx : feeds[id]? with
    | none => rfl
    | some x =>
      have hkept : x.Kept env o ↔ x.Kept env o' := by
        unfold Feed.Kept
        exact forall_congr' fun hfield => not_congr (hagree id x hx hfield)
      simp only [Option.filter_some, decide_eq_decide.mpr hkept]

end Stores

/-! ### The engine -/

section Run

variable {env : Env} {e : SearchEngine} {texts : Catalog} {bits : UInt8}

theorem write_run {db : Db} (hb : ValidBits bits) (hr : Renders env e.options texts db) {c : Call}
    (hc : c.Writes) :
    ∃ db', ((c.prog env e).run (quiet db none bits false)).2 = quiet db' none bits false ∧
      Renders env e.options (Catalog.write env e.options bits texts c) db' := by
  cases c with
  | index id text =>
    rw [Call.prog, run_bind_pure_world, index_run]
    exact ⟨_, rfl, hr.put id text⟩
  | remove id =>
    rw [Call.prog, run_bind_pure_world, remove_run]
    exact ⟨_, rfl, hr.drop id⟩
  | indexBatch items =>
    rw [Call.prog, map_eq_bind, run_bind_pure_world, indexBatch_run]
    exact ⟨_, rfl, hr.putItems items⟩
  | removeBatch ids =>
    rw [Call.prog, map_eq_bind, run_bind_pure_world, removeBatch_run]
    exact ⟨_, rfl, hr.dropIds ids⟩
  | removeAll =>
    rw [Call.prog, map_eq_bind, run_bind_pure_world, removeAll_run]
    exact ⟨_, rfl, Renders.clear⟩
  | indexRecord r fields =>
    rw [Call.prog, run_bind_pure_world, Catalog.write]
    by_cases hok : RecordOk bits r ∧ SlotsOk bits fields
    · rw [if_pos hok, indexRecord_run env e db hb hok.1 hok.2]
      exact ⟨_, rfl, hr.putRecord bits r fields⟩
    · obtain ⟨err, hrun⟩ := indexRecord_rejected env e db hb hok
      rw [if_neg hok, hrun]
      exact ⟨_, rfl, hr⟩
  | indexRecordsBatch records =>
    rw [Call.prog, map_eq_bind, run_bind_pure_world, Catalog.write]
    by_cases hok : RecordsOk bits records
    · rw [if_pos hok, indexRecordsBatch_run env e db hb hok]
      exact ⟨_, rfl, hr.putRecords bits records⟩
    · obtain ⟨err, hrun⟩ := indexRecordsBatch_rejected env e db hb hok
      rw [if_neg hok, hrun]
      exact ⟨_, rfl, hr⟩
  | removeRecord r =>
    rw [Call.prog, run_bind_pure_world, Catalog.write]
    by_cases hok : RecordOk bits r
    · rw [if_pos hok, removeRecord_run db hb hok]
      exact ⟨_, rfl, hr.clearRange _ _⟩
    · obtain ⟨err, hrun⟩ := removeRecord_rejected db hb hok
      rw [if_neg hok, hrun]
      exact ⟨_, rfl, hr⟩
  | _ => exact hc.elim

/-- An engine is open on a file that holds `texts`. -/
structure Serving (env : Env) (h : Host) (e : SearchEngine) (bits : UInt8) (texts : Catalog) :
    Prop where
  opened : h.opened = some { engine := e, fieldBits := bits }
  ok : Host.EngineOk env h.file e bits
  renders : Renders env e.options texts h.file

theorem Serving.write {h : Host} (hs : Serving env h e bits texts) {c : Call} (hc : c.Writes) :
    Serving env (h.step env (.call c)) e bits (Catalog.write env e.options bits texts c) := by
  obtain ⟨db', hrun, hr⟩ := write_run hs.ok.valid hs.renders hc
  have hok := hs.ok.call c
  have hstep : h.step env (.call c) =
      { file := db', opened := some { engine := e, fieldBits := bits } } := by
    have hworld : Host.world h.file { engine := e, fieldBits := bits } =
        quiet h.file none bits false := rfl
    simp only [Host.step, hs.opened, hworld, hrun]
    rfl
  rw [hrun] at hok
  rw [hstep]
  exact ⟨rfl, hok, hr⟩

theorem Serving.history {h : Host} (hs : Serving env h e bits texts) (calls : List Call)
    (hw : ∀ c ∈ calls, c.Writes) :
    Serving env (h.run env (calls.map .call)) e bits
      (calls.foldl (Catalog.write env e.options bits) texts) := by
  induction calls generalizing h texts with
  | nil => exact hs
  | cons c calls ih =>
    rw [List.forall_mem_cons] at hw
    exact ih (hs.write hw.1) hw.2

theorem Serving.reopen {h : Host} {o : NormalizeOptions} (hfile : Host.FileOk env h.file)
    (hr : Renders env o texts h.file)
    (hstamp : h.file.entries ≠ ∅ → h.file.metaTable.normalizeProfile = some o.fingerprint)
    {c : Constructor} {options : NormalizeOptions} {strategy : SearchStrategy}
    {fieldBits : Option UInt8} {rebuild : Bool}
    (hprog : c.prog env = openEngine env options strategy fieldBits rebuild)
    (he : effectiveBits fieldBits (h.file.opened env).storedFieldBits = .ok bits)
    (hp : rebuild = true ∨
      ((h.file.opened env).storedProfile.any fun s => s ≠ options.fingerprint) = false) :
    Serving env (h.step env (.reopen c)) { options := options, strategy := strategy } bits
      texts := by
  obtain ⟨hopened, hcol⟩ := hfile.opened
  obtain ⟨hdocs, hentries, _, hprofile, _⟩ := hfile.opened_same
  have hrun := openEngine_run env h.file 0 options strategy fieldBits rebuild he hp
  have hworld : Host.openWorld h.file = quiet h.file none 0 false := rfl
  have hstep : h.step env (.reopen c) =
      { file := (h.file.opened env).adopted env { options := options, strategy := strategy } bits
        opened := some
          { engine := { options := options, strategy := strategy }, fieldBits := bits } } := by
    simp only [Host.step, hprog, hworld, hrun]
    rfl
  rw [hstep]
  refine ⟨rfl, hopened.adopted hcol _ (hopened.effective he), ?_⟩
  have hsame : Renders env o texts (h.file.opened env) := hr.of_eq hdocs hentries
  refine hsame.adopted (fun hne => ?_) bits
  rw [hprofile]
  exact hstamp (hentries ▸ hne)

/-- A width a host asks for, or the default. -/
theorem effectiveBits_fresh {fieldBits : Option UInt8}
    (hb : ∀ n, fieldBits = some n → ValidBits n) :
    effectiveBits fieldBits none = .ok (fieldBits.getD DEFAULT_FIELD_BITS) := by
  cases fieldBits with
  | none => rfl
  | some n =>
    simp only [effectiveBits, checkFieldBits_ok (hb n rfl), Bind.bind, Except.bind,
      Option.getD_some]

theorem effectiveBits_stored {fieldBits : Option UInt8}
    (hb : ∀ n, fieldBits = some n → ValidBits n) :
    effectiveBits fieldBits (some (fieldBits.getD DEFAULT_FIELD_BITS)) =
      .ok (fieldBits.getD DEFAULT_FIELD_BITS) := by
  cases fieldBits with
  | none => rfl
  | some n =>
    simp only [effectiveBits, checkFieldBits_ok (hb n rfl), Bind.bind, Except.bind,
      Option.getD_some, ne_eq, not_true_eq_false, ite_false]

theorem serving_fresh (env : Env) (o : NormalizeOptions) (strategy : SearchStrategy)
    {fieldBits : Option UInt8} (hb : ∀ n, fieldBits = some n → ValidBits n) :
    Serving env (Host.step env {} (.reopen (.withOptions
        { normalize := o, strategy := strategy, fieldBits := fieldBits })))
      { options := o, strategy := strategy } (fieldBits.getD DEFAULT_FIELD_BITS) ∅ := by
  have hfile : Host.FileOk env Db.fresh := Host.fresh_ok
  have hentries : (Db.fresh.opened env).entries = ∅ := hfile.opened_same.2.1
  have hsize : (Db.fresh.opened env).entries.size = 0 :=
    Std.ExtTreeMap.eq_empty_iff_size_eq_zero.mp hentries
  refine Serving.reopen (h := {}) (o := o) hfile (Renders.empty rfl rfl) (fun h => absurd rfl h)
    rfl ?_ (.inr ?_)
  · rw [Db.storedFieldBits, if_pos hsize]
    exact effectiveBits_fresh hb
  · rw [Db.storedProfile, if_pos hsize]
    rfl

theorem Serving.rebuild {h : Host} (o : NormalizeOptions) (strategy : SearchStrategy)
    {fieldBits : Option UInt8} (hb : ∀ n, fieldBits = some n → ValidBits n)
    (hs : Serving env h e (fieldBits.getD DEFAULT_FIELD_BITS) texts) :
    Serving env (h.step env (.reopen (.withOptionsRebuilding
        { normalize := o, strategy := strategy, fieldBits := fieldBits })))
      { options := o, strategy := strategy } (fieldBits.getD DEFAULT_FIELD_BITS) texts := by
  have hfile := hs.ok.fileOk
  refine Serving.reopen hfile hs.renders (fun _ => hs.ok.profile) rfl ?_ (.inl rfl)
  obtain ⟨_, _, _, _, hbits⟩ := hfile.opened_same
  rw [Db.storedFieldBits]
  split
  · exact effectiveBits_fresh hb
  · rw [hbits, hs.ok.stamp, Option.bind_some, Host.parseU8_bitsText, Option.getD_some]
    exact effectiveBits_stored hb

end Run

/-- A history of calls on a fresh index. -/
def fedHost (env : Env) (o : NormalizeOptions) (strategy : SearchStrategy)
    (fieldBits : Option UInt8) (history : List Call) : Host :=
  Host.run env {} (.reopen (.withOptions
    { normalize := o, strategy := strategy, fieldBits := fieldBits }) :: history.map .call)

/-- The same under `a`, opened again under `b` with a rebuild. -/
def rebuiltHost (env : Env) (a b : NormalizeOptions) (strategy : SearchStrategy)
    (fieldBits : Option UInt8) (history : List Call) : Host :=
  (fedHost env a strategy fieldBits history).step env (.reopen (.withOptionsRebuilding
    { normalize := b, strategy := strategy, fieldBits := fieldBits }))

/-- Rebuilding under `b` equals feeding the history again under `b` just when the fields
the history leaves are empty under both option sets or under neither. -/
theorem rebuild_eq_refeed_iff (env : Env) (a b : NormalizeOptions) (strategy : SearchStrategy)
    {fieldBits : Option UInt8} (hb : ∀ n, fieldBits = some n → ValidBits n) {history : List Call}
    (hw : ∀ c ∈ history, c.Writes) :
    (rebuiltHost env a b strategy fieldBits history).file.entries =
        (fedHost env b strategy fieldBits history).file.entries ∧
      (rebuiltHost env a b strategy fieldBits history).file.docs =
        (fedHost env b strategy fieldBits history).file.docs ↔
    ∀ (id : Int64) x,
      (Feeds.ofHistory (fieldBits.getD DEFAULT_FIELD_BITS) history)[id]? = some x →
        x.field = true →
          (normalize env.unicode a x.text = [] ↔ normalize env.unicode b x.text = []) := by
  have hfeda := (serving_fresh env a strategy hb).history history hw
  have hfedb := (serving_fresh env b strategy hb).history history hw
  have hrebuilt := hfeda.rebuild b strategy hb
  have hbits := hfeda.ok.valid
  have hstoresa : Stores env a (Feeds.ofHistory _ history) _ :=
    Stores.empty.history hbits history hw
  have hstoresb : Stores env b (Feeds.ofHistory _ history) _ :=
    Stores.empty.history hbits history hw
  exact (hrebuilt.renders.tables_eq_iff hfedb.renders).trans (hstoresa.texts_eq_iff hstoresb)

/-! ### A field of spaces -/

/-- One record whose only field is three spaces. -/
def blankHistory : List Call := [.indexRecord 1 [{ slot := 0, text := [' ', ' ', ' '] }]]

theorem blank_rows :
    (rebuiltHost .ascii {} { collapseWhitespace := true } .substring none
        blankHistory).file.entries.size = 1 ∧
      (fedHost .ascii { collapseWhitespace := true } .substring none
        blankHistory).file.entries.size = 0 := by
  decide +kernel

theorem blankHistory_writes : ∀ c ∈ blankHistory, c.Writes := by
  intro c hc
  rw [blankHistory, List.mem_singleton] at hc
  rw [hc]
  trivial

theorem rebuild_ne_refeed :
    ¬ ∀ (a b : NormalizeOptions) (history : List Call), (∀ c ∈ history, c.Writes) →
      (rebuiltHost .ascii a b .substring none history).file.entries =
          (fedHost .ascii b .substring none history).file.entries ∧
        (rebuiltHost .ascii a b .substring none history).file.docs =
          (fedHost .ascii b .substring none history).file.docs := by
  intro h
  obtain ⟨hentries, _⟩ := h {} { collapseWhitespace := true } blankHistory blankHistory_writes
  obtain ⟨hrebuilt, hfed⟩ := blank_rows
  rw [hentries, hfed] at hrebuilt
  cases hrebuilt

theorem rebuild_eq_refeed_blank :
    (rebuiltHost .ascii {} { lowercase := true } .substring none blankHistory).file.entries =
        (fedHost .ascii { lowercase := true } .substring none blankHistory).file.entries ∧
      (rebuiltHost .ascii {} { lowercase := true } .substring none blankHistory).file.docs =
        (fedHost .ascii { lowercase := true } .substring none blankHistory).file.docs ↔
    ∀ (id : Int64) x, (Feeds.ofHistory DEFAULT_FIELD_BITS blankHistory)[id]? = some x →
      x.field = true → (normalize Unicode.ascii {} x.text = [] ↔
        normalize Unicode.ascii { lowercase := true } x.text = []) :=
  rebuild_eq_refeed_iff .ascii {} { lowercase := true } .substring (fun n h => by cases h)
    blankHistory_writes

end Unfydqry
