import Unfydqry.Engine.Handles
import Unfydqry.IndexInvariant

/-! # Files with half written rows

`index`, `remove` and `remove_record` write the row of `docs` before the row of `entries`, in
statements of their own. In between the file renders a catalog but for some rows of `docs`. -/

namespace Unfydqry

open LockedStore Prog SearchEngine

/-- The file renders the catalog; where `torn id v` holds, `docs` has `v` under `id` instead. -/
structure RendersBut (env : Env) (o : NormalizeOptions) (texts : Catalog)
    (torn : Int64 → Option Text → Prop) (db : Db) : Prop where
  entries : ∀ id : Int64, db.entries[id]? = texts[id]?.map (renderEntry env o)
  half : ∀ id v, torn id v → db.docs[id]? = v
  whole : ∀ id : Int64, (∀ v, ¬ torn id v) →
    db.docs[id]? = texts[id]?.map (normalize env.unicode o)

namespace RendersBut

variable {env : Env} {e : SearchEngine} {o : NormalizeOptions} {texts texts' : Catalog}
  {torn torn' : Int64 → Option Text → Prop} {db db' : Db}

theorem of_renders (h : Renders env o texts db) (hnone : ∀ id v, ¬ torn id v) :
    RendersBut env o texts torn db where
  entries := h.entries_lookup
  half id v hv := (hnone id v hv).elim
  whole id _ := h.docs_lookup id

theorem renders (h : RendersBut env o texts torn db) (hnone : ∀ id v, ¬ torn id v) :
    Renders env o texts db :=
  Renders.of_lookup (fun id => h.whole id (hnone id)) h.entries

theorem congr (h : RendersBut env o texts torn db) (hiff : ∀ id v, torn' id v ↔ torn id v) :
    RendersBut env o texts torn' db where
  entries := h.entries
  half id v hv := h.half id v ((hiff id v).mp hv)
  whole id hv := h.whole id fun v ht => hv v ((hiff id v).mpr ht)

/-- A change of some rows: off them nothing moves, on them the new file is as it should be. -/
theorem change (h : RendersBut env o texts torn db) {p : Int64 → Prop}
    (hoff : ∀ a, ¬ p a → db'.docs[a]? = db.docs[a]? ∧ db'.entries[a]? = db.entries[a]? ∧
      texts'[a]? = texts[a]? ∧ ∀ v, torn' a v ↔ torn a v)
    (hon : ∀ a, p a → db'.entries[a]? = texts'[a]?.map (renderEntry env o) ∧
      (∀ v, torn' a v → db'.docs[a]? = v) ∧
      ((∀ v, ¬ torn' a v) → db'.docs[a]? = texts'[a]?.map (normalize env.unicode o))) :
    RendersBut env o texts' torn' db' where
  entries a := by
    by_cases ha : p a
    · exact (hon a ha).1
    · obtain ⟨_, hentry, htext, _⟩ := hoff a ha
      rw [hentry, htext, h.entries]
  half a v hv := by
    by_cases ha : p a
    · exact (hon a ha).2.1 v hv
    · obtain ⟨hdoc, _, _, hiff⟩ := hoff a ha
      rw [hdoc, h.half a v ((hiff v).mp hv)]
  whole a hv := by
    by_cases ha : p a
    · exact (hon a ha).2.2 hv
    · obtain ⟨hdoc, _, htext, hiff⟩ := hoff a ha
      rw [hdoc, htext, h.whole a fun v ht => hv v ((hiff v).mpr ht)]

theorem put (h : RendersBut env e.options texts torn db) {id : Int64} (hid : ∀ v, ¬ torn id v)
    (text : Text) :
    RendersBut env e.options (texts.insert id text) torn (db.put env e id text) := by
  refine h.change (p := fun a => a = id) (fun a ha => ?_) fun a ha => ?_
  · simp only [Db.put, Table.lookup_insert, if_neg ha, iff_self, implies_true, and_self]
  · subst ha
    simp only [Db.put, Table.lookup_insert, if_true, Option.map_some]
    exact ⟨rfl, fun v hv => (hid v hv).elim, fun _ => rfl⟩

theorem drop (h : RendersBut env o texts torn db) {id : Int64} (hid : ∀ v, ¬ torn id v) :
    RendersBut env o (texts.erase id) torn (db.drop id) := by
  refine h.change (p := fun a => a = id) (fun a ha => ?_) fun a ha => ?_
  · simp only [Db.drop, Table.lookup_erase, if_neg ha, iff_self, implies_true, and_self]
  · subst ha
    simp only [Db.drop, Table.lookup_erase, if_true, Option.map_none, true_and, implies_true,
      and_true]
    exact fun v hv => (hid v hv).elim

theorem clearRange (h : RendersBut env o texts torn db) {lo hi : Int64}
    (hids : ∀ id v, torn id v → ¬ Sql.between lo hi id = true) :
    RendersBut env o (Catalog.clearRange lo hi texts) torn (db.clearRange lo hi) := by
  refine h.change (p := fun a => Sql.between lo hi a = true) (fun a ha => ?_) fun a ha => ?_
  · simp only [Db.clearRange, Catalog.clearRange, Table.lookup_eraseWhere, if_neg ha, iff_self,
      implies_true, and_self]
  · simp only [Db.clearRange, Catalog.clearRange, Table.lookup_eraseWhere, if_pos ha,
      Option.map_none, true_and, implies_true, and_true]
    exact fun v hv => (hids a v hv ha).elim

theorem putField (h : RendersBut env e.options texts torn db) {bits : UInt8} {r : Int64}
    {f : FieldValue} (hid : ∀ v, ¬ torn (packId bits r f.slot) v) :
    RendersBut env e.options (Catalog.putField env e.options bits r texts f) torn
      (db.putField env e bits r f) := by
  unfold Catalog.putField Db.putField SearchEngine.normalizer
  split
  · exact h
  · exact h.put hid _

theorem foldl {α : Type} {g : Catalog → α → Catalog} {g' : Db → α → Db} (as : List α)
    (hstep : ∀ a ∈ as, ∀ texts db, RendersBut env o texts torn db →
      RendersBut env o (g texts a) torn (g' db a))
    (h : RendersBut env o texts torn db) :
    RendersBut env o (as.foldl g texts) torn (as.foldl g' db) := by
  induction as generalizing texts db with
  | nil => exact h
  | cons a as ih =>
    rw [List.forall_mem_cons] at hstep
    exact ih hstep.2 (hstep.1 _ _ h)

theorem putItems (h : RendersBut env e.options texts torn db) {items : List IndexItem}
    (hids : ∀ item ∈ items, ∀ v, ¬ torn item.id v) :
    RendersBut env e.options (Catalog.putItems items texts) torn (db.putItems env e items) :=
  foldl items (fun item hitem _ _ ht => ht.put (hids item hitem) item.text) h

theorem dropIds (h : RendersBut env o texts torn db) {ids : List Int64}
    (hids : ∀ id ∈ ids, ∀ v, ¬ torn id v) :
    RendersBut env o (Catalog.dropIds ids texts) torn (db.dropIds ids) :=
  foldl ids (fun id hid _ _ ht => ht.drop (hids id hid)) h

theorem putRecord (h : RendersBut env e.options texts torn db) {bits : UInt8} (hb : ValidBits bits)
    {r : Int64} (hr : RecordOk bits r) {fields : List FieldValue} (hs : SlotsOk bits fields)
    (hids : ∀ id v, torn id v → ¬ Sql.between (shlOf bits r) (hiOf bits r) id = true) :
    RendersBut env e.options (Catalog.putRecord env e.options bits r fields texts) torn
      (db.putRecord env e bits r fields) := by
  refine foldl fields (fun f hf _ _ ht => ht.putField fun v hv => ?_) (h.clearRange hids)
  exact hids _ v hv (packId_between hb hr.1 hr.2 (hs.1 f hf))

theorem putRecords (h : RendersBut env e.options texts torn db) {bits : UInt8} (hb : ValidBits bits)
    {records : List RecordIndexItem} (hok : RecordsOk bits records)
    (hids : ∀ r ∈ records, ∀ id v, torn id v →
      ¬ Sql.between (shlOf bits r.recordId) (hiOf bits r.recordId) id = true) :
    RendersBut env e.options (Catalog.putRecords env e.options bits records texts) torn
      (db.putRecords env e bits records) :=
  foldl records (fun r hr _ _ ht => ht.putRecord hb (hok r hr).1 (hok r hr).2 (hids r hr)) h

/-! ### One statement at a time -/

section Statement

variable {id : Int64} (hid : ∀ v, ¬ torn id v)

include hid

/-- `index` and `remove` take a document out of `docs` first. -/
theorem unlist (h : RendersBut env o texts torn db) :
    RendersBut env o texts (fun a v => (a = id ∧ v = none) ∨ torn a v)
      { db with docs := db.docs.erase id } := by
  refine h.change (p := fun a => a = id) (fun a ha => ?_) fun a ha => ?_
  · simp only [Table.lookup_erase, ha, if_false, false_and, false_or, iff_self, implies_true,
      and_self]
  · subst ha
    simp only [Table.lookup_erase, if_true, true_and]
    refine ⟨h.entries a, fun v hv => ?_, fun hnone => (hnone none (.inl rfl)).elim⟩
    rcases hv with rfl | hv
    · rfl
    · exact (hid v hv).elim

theorem list (h : RendersBut env o texts (fun a v => (a = id ∧ v = none) ∨ torn a v) db)
    (norm : Text) :
    RendersBut env o texts (fun a v => (a = id ∧ v = some norm) ∨ torn a v)
      { db with docs := db.docs.insert id norm } := by
  refine h.change (p := fun a => a = id) (fun a ha => ?_) fun a ha => ?_
  · simp only [Table.lookup_insert, ha, if_false, false_and, false_or, iff_self, implies_true,
      and_self]
  · subst ha
    simp only [Table.lookup_insert, if_true, true_and]
    refine ⟨h.entries a, fun v hv => ?_, fun hnone => (hnone _ (.inl rfl)).elim⟩
    rcases hv with rfl | hv
    · rfl
    · exact (hid v hv).elim

theorem store {text : Text}
    (h : RendersBut env e.options texts
      (fun a v => (a = id ∧ v = some (e.normalizer env text)) ∨ torn a v) db) :
    RendersBut env e.options (texts.insert id text) torn
      { db with entries := db.entries.insert id (e.entryOf env text) } := by
  refine h.change (p := fun a => a = id) (fun a ha => ?_) fun a ha => ?_
  · simp only [Table.lookup_insert, ha, if_false, false_and, false_or, iff_self, implies_true,
      and_self]
  · subst ha
    simp only [Table.lookup_insert, if_true, Option.map_some]
    exact ⟨rfl, fun v hv => (hid v hv).elim, fun _ => h.half a _ (.inl ⟨rfl, rfl⟩)⟩

theorem unstore (h : RendersBut env o texts (fun a v => (a = id ∧ v = none) ∨ torn a v) db) :
    RendersBut env o (texts.erase id) torn { db with entries := db.entries.erase id } := by
  refine h.change (p := fun a => a = id) (fun a ha => ?_) fun a ha => ?_
  · simp only [Table.lookup_erase, ha, if_false, false_and, false_or, iff_self, implies_true,
      and_self]
  · subst ha
    simp only [Table.lookup_erase, if_true, Option.map_none, true_and]
    exact ⟨fun v hv => (hid v hv).elim, fun _ => h.half a _ (.inl ⟨rfl, rfl⟩)⟩

end Statement

section Range

variable {lo hi : Int64} (hids : ∀ id v, torn id v → ¬ Sql.between lo hi id = true)

include hids

/-- `remove_record` takes its fields out of `docs` first. -/
theorem unlistRange (h : RendersBut env o texts torn db) :
    RendersBut env o texts (fun a v => (Sql.between lo hi a = true ∧ v = none) ∨ torn a v)
      { db with docs := Table.eraseWhere (Sql.between lo hi) db.docs } := by
  refine h.change (p := fun a => Sql.between lo hi a = true) (fun a ha => ?_) fun a ha => ?_
  · simp only [Table.lookup_eraseWhere, ha, Bool.false_eq_true, if_false, false_and, false_or,
      iff_self, implies_true, and_self]
  · simp only [Table.lookup_eraseWhere, ha, if_true, true_and]
    refine ⟨h.entries a, fun v hv => ?_, fun hnone => (hnone none (.inl rfl)).elim⟩
    rcases hv with rfl | hv
    · rfl
    · exact (hids a v hv ha).elim

theorem unstoreRange
    (h : RendersBut env o texts
      (fun a v => (Sql.between lo hi a = true ∧ v = none) ∨ torn a v) db) :
    RendersBut env o (Catalog.clearRange lo hi texts) torn
      { db with entries := Table.eraseWhere (Sql.between lo hi) db.entries } := by
  refine h.change (p := fun a => Sql.between lo hi a = true) (fun a ha => ?_) fun a ha => ?_
  · simp only [Catalog.clearRange, Table.lookup_eraseWhere, ha, Bool.false_eq_true, if_false,
      false_and, false_or, iff_self, implies_true, and_self]
  · simp only [Catalog.clearRange, Table.lookup_eraseWhere, if_pos ha, Option.map_none, true_and]
    exact ⟨fun v hv => (hids a v hv ha).elim, fun _ => h.half a _ (.inl ⟨ha, rfl⟩)⟩

end Range

end RendersBut

end Unfydqry
