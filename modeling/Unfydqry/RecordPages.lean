import Unfydqry.Lib.RankedPages
import Unfydqry.Search.RowOrder
import Unfydqry.IndexInvariant

/-! # Pages of records

Page `p` asks the strategy for `(p + 1) * per_page * fields_per_record` field hits, in the
strategy's own row order, and cuts the records of these, re-sorted by score and record id.
A record whose first matching field comes later in the row order than its rank allows is
missing from the page it belongs to. -/

namespace Unfydqry

open LockedStore Prog SearchEngine Search RankedPages

namespace SearchEngine

/-- The record, slot and score of one hit. -/
def decoded (bits : UInt8) (h : Hit) : Int64 × UInt8 × ℚ :=
  (shrOf bits h.id, Checked.asU8 (h.id &&& maskOf bits), h.score)

/-- The matching fields as rows of records, in the strategy's order. -/
def fieldRows (bits : UInt8) (rows : List Hit) : List (ℤ × ℚ) :=
  rows.map fun h => ((shrOf bits h.id).toInt, h.score)

def groupKey (g : RecordGroup) : ℤ × ℚ := (g.recordId.toInt, g.score)

def hitKey (h : RecordHit) : ℤ × ℚ := (h.recordId.toInt, h.score)

theorem addHit_new {r : Int64} (s : UInt8) (score : ℚ) {gs : List RecordGroup}
    (h : r.toInt ∉ (gs.map groupKey).map Prod.fst) :
    (addHit r s score gs).map groupKey = gs.map groupKey ++ [(r.toInt, score)] := by
  induction gs with
  | nil => rfl
  | cons g gs ih =>
    rw [List.map_cons, List.map_cons, List.mem_cons, not_or] at h
    have hne : g.recordId ≠ r := fun heq => h.1 (by rw [← heq]; rfl)
    rw [addHit, if_neg hne, List.map_cons, ih h.2, List.map_cons, List.cons_append]

/-- A later field of a record does not change its score: the best one came first. -/
theorem addHit_old {r : Int64} (s : UInt8) {score : ℚ} {gs : List RecordGroup}
    (h : r.toInt ∈ (gs.map groupKey).map Prod.fst) (hbest : ∀ g ∈ gs, g.score ≤ score) :
    (addHit r s score gs).map groupKey = gs.map groupKey := by
  induction gs with
  | nil => cases h
  | cons g gs ih =>
    rw [List.forall_mem_cons] at hbest
    by_cases heq : g.recordId = r
    · rw [addHit, if_pos heq, List.map_cons, List.map_cons]
      simp only [groupKey, if_neg hbest.1.not_gt]
    · have hne : r.toInt ≠ (groupKey g).1 := fun hr => heq (Int64.toInt_inj.mp hr).symm
      rw [List.map_cons, List.map_cons, List.mem_cons] at h
      rw [addHit, if_neg heq, List.map_cons, List.map_cons, ih (h.resolve_left hne) hbest.2]

theorem mem_addHit_score {r : Int64} {s : UInt8} {score : ℚ} {gs : List RecordGroup}
    {bound : ℚ} (hgs : ∀ g ∈ gs, g.score ≤ bound) (hscore : score ≤ bound) :
    ∀ g ∈ addHit r s score gs, g.score ≤ bound := by
  induction gs with
  | nil =>
    intro g hg
    rw [addHit, List.mem_singleton] at hg
    rw [hg]
    exact hscore
  | cons g gs ih =>
    rw [List.forall_mem_cons] at hgs
    intro g' hg'
    unfold addHit at hg'
    split at hg'
    · rcases List.mem_cons.mp hg' with rfl | hm
      · dsimp only
        split
        · exact hscore
        · exact hgs.1
      · exact hgs.2 g' hm
    · rcases List.mem_cons.mp hg' with rfl | hm
      · exact hgs.1
      · exact ih hgs.2 g' hm

theorem foldl_addHit (ds : List (Int64 × UInt8 × ℚ)) (gs : List RecordGroup)
    (hsorted : ds.Pairwise fun a b => a.2.2 ≤ b.2.2)
    (hbest : ∀ g ∈ gs, ∀ d ∈ ds, g.score ≤ d.2.2) :
    (ds.foldl (fun gs d => addHit d.1 d.2.1 d.2.2 gs) gs).map groupKey =
      gs.map groupKey ++ (firsts (ds.map fun d => (d.1.toInt, d.2.2))).filter
        fun x => !among (gs.map groupKey) x := by
  induction ds generalizing gs with
  | nil => simp [firsts]
  | cons d ds ih =>
    rw [List.pairwise_cons] at hsorted
    have hd : ∀ g ∈ gs, g.score ≤ d.2.2 := fun g hg => hbest g hg d (List.mem_cons_self ..)
    have hnext : ∀ g ∈ addHit d.1 d.2.1 d.2.2 gs, ∀ d' ∈ ds, g.score ≤ d'.2.2 :=
      fun g hg d' hd' => mem_addHit_score
        (fun g hg => hbest g hg d' (List.mem_cons_of_mem _ hd')) (hsorted.1 d' hd') g hg
    rw [List.foldl_cons, ih _ hsorted.2 hnext, List.map_cons, firsts, List.filter_cons,
      List.filter_filter]
    by_cases hin : d.1.toInt ∈ (gs.map groupKey).map Prod.fst
    · rw [addHit_old d.2.1 hin hd]
      have hamong : among (gs.map groupKey) (d.1.toInt, d.2.2) = true := decide_eq_true hin
      rw [hamong, Bool.not_true, if_neg (by simp)]
      congr 1
      refine List.filter_congr fun x _ => ?_
      by_cases hx : x.1 = d.1.toInt
      · have hx' : among (gs.map groupKey) x = true := decide_eq_true (hx ▸ hin)
        simp [hx']
      · simp [hx]
    · rw [addHit_new d.2.1 d.2.2 hin]
      have hamong : among (gs.map groupKey) (d.1.toInt, d.2.2) = false := decide_eq_false hin
      rw [hamong, Bool.not_false, if_pos rfl, List.append_assoc, List.singleton_append]
      congr 2
      refine List.filter_congr fun x _ => ?_
      by_cases hx : x.1 = d.1.toInt
      · simp [among, hx]
      · simp [among, hx]

/-- Collapsing hits that come best first is ranking their records. -/
theorem collapse_ranking (ds : List (Int64 × UInt8 × ℚ))
    (hsorted : ds.Pairwise fun a b => a.2.2 ≤ b.2.2) :
    (collapse ds).map hitKey = ranking (ds.map fun d => (d.1.toInt, d.2.2)) := by
  have horder : ∀ a b : RecordHit, recordOrder a b ↔ rankOrder (hitKey a) (hitKey b) := by
    intro a b
    simp only [recordOrder, rankOrder, hitKey, Int64.le_iff_toInt_le]
  have hgroups := foldl_addHit ds [] hsorted (fun g hg => by cases hg)
  rw [collapse, List.map_insertionSort recordOrder rankOrder hitKey _ fun a _ b _ => horder a b,
    List.map_map]
  have hkey : (hitKey ∘ RecordGroup.hit) = groupKey := rfl
  rw [hkey, hgroups, List.map_nil, List.nil_append, ranking]
  congr 1
  exact List.filter_eq_self.mpr fun x _ => by simp [among]

/-! ### What the calls answer -/

variable {env : Env} {e : SearchEngine} {query : Text} {db : Db} {bits : UInt8}

/-- The matching fields: all rows of the strategy, or none for a query that is empty once
normalized. -/
def matchedRows (env : Env) (e : SearchEngine) (query : Text) (db : Db) :
    Except SearchError (List Hit) :=
  if (e.normalizer env query).isEmpty then .ok []
  else strategyRows env.sqlite (e.normalizer env query) db e.strategy

theorem eval_decode (hb : ValidBits bits) (saved : Option Db) (held : Bool) (h : Hit) :
    (decode h).eval (quiet db saved bits held) =
      (.ok (decoded bits h), quiet db saved bits held) := by
  simp only [decode, recordOf, slotOf, fieldBits, eval_bind, eval_read_quiet, andThen_ok,
    shr_some hb, lowMask_some hb, eval_trap_some, eval_pure, decoded]

/-- The answer of `search_records` from the matching fields. -/
def recordsOf (bits : UInt8) (limit rawLimit : UInt32) (rows : List Hit) : List RecordHit :=
  limited limit (collapse ((limited rawLimit rows).map (decoded bits)))

theorem checkedMul_some {a b : UInt32} (h : a.toNat * b.toNat < 2 ^ 32) :
    ∃ c, checkedMul a b = some c ∧ c.toNat = a.toNat * b.toNat := by
  refine ⟨a * b, if_pos h, ?_⟩
  rw [UInt32.toNat_mul]
  exact Nat.mod_eq_of_lt h

theorem checkedAdd_some {a b : UInt32} (h : a.toNat + b.toNat < 2 ^ 32) :
    ∃ c, checkedAdd a b = some c ∧ c.toNat = a.toNat + b.toNat := by
  refine ⟨a + b, if_pos h, ?_⟩
  rw [UInt32.toNat_add]
  exact Nat.mod_eq_of_lt h

theorem saturatingMul_toNat {a b : UInt32} (h : a.toNat * b.toNat < 2 ^ 32) :
    (saturatingMul a b).toNat = a.toNat * b.toNat := by
  obtain ⟨c, hc, hv⟩ := checkedMul_some h
  rw [saturatingMul, hc, Option.getD_some, hv]

section Answers

variable (hf : env.sqlite.rowFault = none) (hb : ValidBits bits)

include hf hb

theorem eval_searchRecords (e : SearchEngine) (query : Text) (db : Db)
    (limit perRecord : UInt32) :
    ∃ held, (searchRecords env e query limit perRecord).eval (quiet db none bits false) =
      (outcome ((matchedRows env e query db).map
        (recordsOf bits limit (saturatingMul limit (atLeastOne perRecord)))),
        quiet db none bits held) := by
  unfold searchRecords matchedRows
  by_cases hq : (e.normalizer env query).isEmpty = true
  · refine ⟨false, ?_⟩
    have hnone : collapse [] = [] := rfl
    simp only [hq, if_true, eval_pure, Except.map, outcome, recordsOf, limited, List.take_nil,
      List.map_nil, hnone]
  · have hne : e.normalizer env query ≠ [] := mt List.isEmpty_iff.mpr hq
    have hsearch := eval_strategySearch hf db none bits true e.strategy hne
      (saturatingMul limit (atLeastOne perRecord))
    simp only [if_neg hq]
    cases hrows : strategyRows env.sqlite (e.normalizer env query) db e.strategy with
    | error err =>
      refine ⟨true, ?_⟩
      simp only [hrows, Except.map, outcome] at hsearch ⊢
      simp only [lockedConn, algorithm, eval_bind, eval_acquire_quiet, andThen_ok, hsearch,
        andThen_err]
    | ok rows =>
      refine ⟨false, ?_⟩
      simp only [hrows, Except.map, outcome] at hsearch ⊢
      have hdecode := eval_traverse_ok (quiet db none bits false)
        (limited (saturatingMul limit (atLeastOne perRecord)) rows)
        fun h _ => eval_decode hb none false h
      simp only [lockedConn, algorithm, eval_bind, eval_acquire_quiet, andThen_ok, hsearch,
        eval_release_quiet, Option.getD_none, hdecode, eval_pure, recordsOf]

/-- The page computed from the matching fields. -/
def pageOf (bits : UInt8) (size perRecord : ℕ) (rows : List Hit) (p : ℕ) : List RecordHit :=
  (((collapse ((rows.take ((p + 1) * size * perRecord)).map (decoded bits))).take
    ((p + 1) * size)).drop (p * size)).take size

theorem searchRecordsPage_run {perPage perRecord : UInt32} {p : ℕ}
    (hfit : (p + 1) * perPage.toNat * (atLeastOne perRecord).toNat < 2 ^ 32)
    (hpos : 0 < perPage) :
    ((searchRecordsPage env e query perPage (UInt32.ofNat p) perRecord).run
        (quiet db none bits false)).1 =
      outcome ((matchedRows env e query db).map
        fun rows => pageOf bits perPage.toNat (atLeastOne perRecord).toNat rows p) := by
  have hsize : 0 < perPage.toNat := UInt32.lt_iff_toNat_lt.mp hpos
  have hfields : 0 < (atLeastOne perRecord).toNat := by
    unfold atLeastOne
    split
    · decide
    · rename_i hne
      exact Nat.pos_of_ne_zero fun h => hne (UInt32.toNat_inj.mp h)
  have htotal : (p + 1) * perPage.toNat < 2 ^ 32 :=
    (Nat.le_mul_of_pos_right _ hfields).trans_lt hfit
  have hsplit : (p + 1) * perPage.toNat = p * perPage.toNat + perPage.toNat := by
    rw [Nat.add_mul, Nat.one_mul]
  have hp : (UInt32.ofNat p).toNat = p := by
    have hle : p + 1 ≤ (p + 1) * perPage.toNat := Nat.le_mul_of_pos_right _ hsize
    rw [UInt32.toNat_ofNat']
    exact Nat.mod_eq_of_lt (by omega)
  obtain ⟨offset, hoffset, hoffsetv⟩ := checkedMul_some (a := UInt32.ofNat p) (b := perPage)
    (by rw [hp]; omega)
  rw [hp] at hoffsetv
  obtain ⟨total, htot, htotv⟩ := checkedAdd_some (a := offset) (b := perPage)
    (by rw [hoffsetv]; omega)
  rw [hoffsetv, ← hsplit] at htotv
  have hraw : (saturatingMul total (atLeastOne perRecord)).toNat =
      (p + 1) * perPage.toNat * (atLeastOne perRecord).toNat := by
    rw [← htotv] at hfit ⊢
    exact saturatingMul_toNat hfit
  obtain ⟨held, hall⟩ := eval_searchRecords hf hb e query db total perRecord
  cases hrows : matchedRows env e query db with
  | error err =>
    rw [hrows] at hall
    simp only [searchRecordsPage, hoffset, htot, Prog.run, eval_bind, hall, Except.map, outcome,
      andThen_err]
  | ok rows =>
    rw [hrows] at hall
    simp only [searchRecordsPage, hoffset, htot, Prog.run, eval_bind, hall, Except.map, outcome,
      andThen_ok, eval_pure, recordsOf, pageOf, limited, hraw, hoffsetv, htotv]

theorem matchCountRecords_answer (e : SearchEngine) (query : Text) (db : Db)
    (perRecord : UInt32) :
    ((matchCountRecords env e query perRecord).run (quiet db none bits false)).1 =
      outcome ((matchedRows env e query db).map fun rows =>
        ((limited u32Max rows).map fun h => shrOf bits h.id).dedup.length) := by
  unfold matchCountRecords matchedRows
  by_cases hq : (e.normalizer env query).isEmpty = true
  · simp only [hq, if_true, Prog.run, eval_pure]
    rfl
  · have hne : e.normalizer env query ≠ [] := mt List.isEmpty_iff.mpr hq
    have hsearch := eval_strategySearch hf db none bits true e.strategy hne u32Max
    simp only [if_neg hq]
    cases hrows : strategyRows env.sqlite (e.normalizer env query) db e.strategy with
    | error err =>
      simp only [hrows, Except.map, outcome] at hsearch ⊢
      simp only [lockedConn, algorithm, Prog.run, eval_bind, eval_acquire_quiet, andThen_ok,
        hsearch,
        andThen_err]
    | ok rows =>
      simp only [hrows, Except.map, outcome] at hsearch ⊢
      have hdecode := eval_traverse_ok (quiet db none bits false) (limited u32Max rows)
        (f := fun h => (Prog.trap (Checked.shr h.id bits) : EngineM Int64))
        (g := fun h => shrOf bits h.id) fun h _ => by rw [shr_some hb, eval_trap_some]
      simp only [lockedConn, algorithm, fieldBits, Prog.run, eval_bind,
        eval_acquire_quiet, andThen_ok, hsearch, eval_release_quiet, Option.getD_none,
        eval_read_quiet, hdecode, eval_pure]

theorem matchCountRecords_run {rows : List Hit} (hrows : matchedRows env e query db = .ok rows)
    (hlen : rows.length < 2 ^ 32) (perRecord : UInt32) :
    ((matchCountRecords env e query perRecord).run (quiet db none bits false)).1 =
      .ok (rows.map fun h => shrOf bits h.id).dedup.length := by
  have hmax : u32Max.toNat = 2 ^ 32 - 1 := by decide
  have hall : limited u32Max rows = rows := by
    rw [limited, hmax, List.take_of_length_le (Nat.le_sub_one_of_lt hlen)]
  rw [matchCountRecords_answer hf hb, hrows]
  simp only [Except.map, hall, outcome]

end Answers

/-! ### The pages together -/

/-- A record with a matching field. -/
def MatchingRecord (env : Env) (e : SearchEngine) (query : Text) (db : Db) (bits : UInt8)
    (r : Int64) : Prop :=
  ∃ rows, matchedRows env e query db = .ok rows ∧ ∃ h ∈ rows, shrOf bits h.id = r

/-- The pages before the first empty one hold every matching record exactly once, and
`match_count_records` is their number. -/
def PagesComplete (env : Env) (e : SearchEngine) (query : Text) (perPage perRecord : UInt32)
    (db : Db) (bits : UInt8) : Prop :=
  ∃ (n : ℕ) (page : ℕ → List RecordHit),
    (∀ p ≤ n, ((searchRecordsPage env e query perPage (UInt32.ofNat p) perRecord).run
      (quiet db none bits false)).1 = .ok (page p)) ∧
    (∀ p < n, page p ≠ []) ∧ page n = [] ∧
    (((List.range n).flatMap page).map RecordHit.recordId).Nodup ∧
    (∀ r, r ∈ ((List.range n).flatMap page).map RecordHit.recordId ↔
      MatchingRecord env e query db bits r) ∧
    ((matchCountRecords env e query perRecord).run (quiet db none bits false)).1 =
      .ok ((List.range n).flatMap page).length

/-- The number of pages before the first empty one. -/
def pageCount (env : Env) (e : SearchEngine) (query : Text) (perPage : UInt32) (db : Db)
    (bits : UInt8) : ℕ :=
  match matchedRows env e query db with
  | .ok rows => count (ranking (fieldRows bits rows)) perPage.toNat
  | .error _ => 0

/-- Every page reads a matching field of each record that ranks before its end. -/
def RecordsShown (bits : UInt8) (size perRecord : ℕ) (rows : List Hit) : Prop :=
  ∀ k, Shown (ranking (fieldRows bits rows))
    (fun k => among ((fieldRows bits rows).take (k * size * perRecord))) size k

theorem le_atLeastOne (n : UInt32) : n.toNat ≤ (atLeastOne n).toNat := by
  unfold atLeastOne
  split
  · rename_i h
    rw [h]
    decide
  · exact le_refl _

theorem matchingRecord_iff {rows : List Hit} (hrows : matchedRows env e query db = .ok rows)
    (r : Int64) : MatchingRecord env e query db bits r ↔ ∃ h ∈ rows, shrOf bits h.id = r := by
  rw [MatchingRecord, hrows]
  constructor
  · rintro ⟨rows', heq, h⟩
    rw [Except.ok.inj heq]
    exact h
  · exact fun h => ⟨rows, rfl, h⟩

theorem fieldRows_keys (bits : UInt8) (rows : List Hit) :
    (fieldRows bits rows).map Prod.fst = (rows.map fun h => shrOf bits h.id).map Int64.toInt := by
  rw [fieldRows, List.map_map, List.map_map]
  rfl

theorem pageOf_keys {rows : List Hit} (hsorted : BestFirst rows) (size perRecord p : ℕ) :
    (pageOf bits size perRecord rows p).map hitKey = page (ranking (fieldRows bits rows))
      (fun k => among ((fieldRows bits rows).take (k * size * perRecord))) size p := by
  have hread : ((rows.take ((p + 1) * size * perRecord)).map (decoded bits)).Pairwise
      fun a b => a.2.2 ≤ b.2.2 := by
    rw [List.pairwise_map]
    exact hsorted.sublist (List.take_sublist _ _)
  have hmul : (p + 1) * size = p * size + size := by rw [Nat.add_mul, Nat.one_mul]
  rw [page_ranking, pageOf, List.map_take, List.map_drop, List.map_take, collapse_ranking _ hread,
    List.drop_take, List.take_take, Nat.min_eq_left (by omega), fieldRows, ← List.map_take,
    List.map_map]
  rfl

/-- A record has no more matching fields than stored ones. -/
theorem fieldRows_count (bits : UInt8) {rows : List Hit} (hstored : Stored db rows) {perRecord : ℕ}
    (hfields : ∀ r, (db.entries.toList.filter fun x => shrOf bits x.1 = r).length ≤ perRecord)
    (k : ℤ) :
    ((fieldRows bits rows).map Prod.fst).count k ≤ perRecord := by
  have hcount : ((fieldRows bits rows).map Prod.fst).count k =
      (rows.map Hit.id).countP fun id => (shrOf bits id).toInt == k := by
    rw [fieldRows_keys, List.count_eq_countP, List.countP_map, List.countP_map, List.countP_map]
    rfl
  have hle := hstored.countP_le fun id => (shrOf bits id).toInt == k
  rw [hcount]
  refine hle.trans ?_
  rw [List.countP_map]
  by_cases hex : ∃ r : Int64, r.toInt = k
  · obtain ⟨r, rfl⟩ := hex
    have hrecord := hfields r
    rw [← List.countP_eq_length_filter] at hrecord
    refine (List.countP_mono_left fun x _ hx => ?_).trans hrecord
    exact decide_eq_true (Int64.toInt_inj.mp (eq_of_beq hx))
  · have hzero : db.entries.toList.countP
        ((fun id => (shrOf bits id).toInt == k) ∘ Prod.fst) = 0 := by
      rw [List.countP_eq_zero]
      intro x _ hx
      exact hex ⟨_, eq_of_beq hx⟩
    omega

/-- The concatenated pages hold the matching records once each just when, as keys with scores,
they are a permutation of the ranking. -/
theorem records_perm_iff {hits : List RecordHit} {rows : List Hit}
    (hsub : hits.map hitKey ⊆ ranking (fieldRows bits rows)) :
    (hits.map hitKey).Perm (ranking (fieldRows bits rows)) ↔
      (hits.map RecordHit.recordId).Nodup ∧
        ∀ r, r ∈ hits.map RecordHit.recordId ↔ ∃ h ∈ rows, shrOf bits h.id = r := by
  have hids : (hits.map hitKey).map Prod.fst = (hits.map RecordHit.recordId).map Int64.toInt := by
    rw [List.map_map, List.map_map]
    rfl
  have hinj : Function.Injective Int64.toInt := fun a b h => Int64.toInt_inj.mp h
  have hrank : ∀ r : Int64, r.toInt ∈ (ranking (fieldRows bits rows)).map Prod.fst ↔
      ∃ h ∈ rows, shrOf bits h.id = r := by
    intro r
    rw [(ranking_keys_perm _).mem_iff, List.mem_dedup, fieldRows_keys,
      List.mem_map_of_injective hinj, List.mem_map]
  rw [perm_iff_keys hsub (ranking_keys_nodup _), hids, List.nodup_map_iff hinj]
  refine and_congr_right fun _ => ⟨fun h r => ?_, fun h k => ?_⟩
  · rw [← hrank, ← h, List.mem_map_of_injective hinj]
  · constructor
    · intro hk
      obtain ⟨r, hr, rfl⟩ := List.mem_map.mp hk
      exact (hrank r).mpr ((h r).mp hr)
    · intro hk
      have hk' := (ranking_keys_perm _).mem_iff.mp hk
      rw [List.mem_dedup, fieldRows_keys] at hk'
      obtain ⟨r, _, rfl⟩ := List.mem_map.mp hk'
      exact List.mem_map_of_mem ((h r).mpr ((hrank r).mp hk))

theorem matchedRows_ok (hs : Synced db) {rows : List Hit}
    (h : matchedRows env e query db = .ok rows) : BestFirst rows ∧ Stored db rows := by
  unfold matchedRows at h
  split at h
  · rw [← Except.ok.inj h]
    exact ⟨List.Pairwise.nil, List.nil_subperm⟩
  · exact strategyRows_ok hs h

section Pages

variable {rows : List Hit} {size perRecord : ℕ}

theorem pages_keys (bits : UInt8) (size perRecord : ℕ) (hsorted : BestFirst rows) (n : ℕ) :
    ((List.range n).flatMap (pageOf bits size perRecord rows)).map hitKey =
      (List.range n).flatMap (page (ranking (fieldRows bits rows))
        (fun k => among ((fieldRows bits rows).take (k * size * perRecord))) size) := by
  rw [List.map_flatMap]
  exact List.flatMap_congr fun p _ => pageOf_keys hsorted size perRecord p

theorem pages_subset (bits : UInt8) (size perRecord : ℕ) (hsorted : BestFirst rows) (n : ℕ) :
    ((List.range n).flatMap (pageOf bits size perRecord rows)).map hitKey ⊆
      ranking (fieldRows bits rows) := by
  rw [pages_keys bits size perRecord hsorted]
  intro x hx
  obtain ⟨p, _, hx⟩ := List.mem_flatMap.mp hx
  exact (List.mem_filter.mp (List.mem_of_mem_drop (List.mem_of_mem_take hx))).1

variable (hsorted : BestFirst rows) (hsize : 0 < size)
  (hmany : ∀ key, ((fieldRows bits rows).map Prod.fst).count key ≤ perRecord)

include hsorted hsize hmany

theorem pageOf_eq_nil_iff (p : ℕ) :
    pageOf bits size perRecord rows p = [] ↔ count (ranking (fieldRows bits rows)) size ≤ p := by
  rw [← List.map_eq_nil_iff (f := hitKey), pageOf_keys hsorted, ← Nat.not_lt,
    lt_count_iff _ hsize]
  constructor
  · intro hnil hlt
    exact page_ne_nil (keys_of_rows hmany size) hsize hlt hnil
  · intro h
    exact page_eq_nil (Nat.not_lt.mp h)

/-- Pages that are the engine's up to the first empty one end where the ranking does. -/
theorem pages_end {n : ℕ} {page : ℕ → List RecordHit}
    (hsame : ∀ p ≤ n, p ≤ count (ranking (fieldRows bits rows)) size →
      page p = pageOf bits size perRecord rows p)
    (hne : ∀ p < n, page p ≠ []) (hnil : page n = []) :
    n = count (ranking (fieldRows bits rows)) size := by
  rcases Nat.lt_trichotomy n (count (ranking (fieldRows bits rows)) size) with hlt | heq | hgt
  · rw [hsame n (le_refl _) hlt.le, pageOf_eq_nil_iff hsorted hsize hmany] at hnil
    omega
  · exact heq
  · have hfirst := hne _ hgt
    rw [hsame _ hgt.le (le_refl _), Ne, pageOf_eq_nil_iff hsorted hsize hmany] at hfirst
    exact absurd (le_refl _) hfirst

theorem pages_perm_ranking_iff :
    (((List.range (count (ranking (fieldRows bits rows)) size)).flatMap
        (pageOf bits size perRecord rows)).map hitKey).Perm (ranking (fieldRows bits rows)) ↔
      RecordsShown bits size perRecord rows := by
  rw [pages_keys bits size perRecord hsorted]
  exact all_pages_perm_iff (keys_of_rows hmany size) (ranking_nodup _) hsize

omit hsorted in
theorem rows_length_le :
    rows.length ≤ (count (ranking (fieldRows bits rows)) size + 1) * size * perRecord := by
  have hrows := length_le_mul hmany
  have hlast := (lt_count_iff (ranking (fieldRows bits rows)) hsize
    (count (ranking (fieldRows bits rows)) size)).not.mp (lt_irrefl _)
  rw [fieldRows, List.length_map, ← fieldRows] at hrows
  calc rows.length ≤ perRecord * (ranking (fieldRows bits rows)).length := hrows
    _ ≤ perRecord * ((count (ranking (fieldRows bits rows)) size + 1) * size) := by
      gcongr
      rw [Nat.add_mul]
      omega
    _ = (count (ranking (fieldRows bits rows)) size + 1) * size * perRecord := Nat.mul_comm _ _

end Pages

/-- The pages are complete just when every page reads a matching field of each record that
ranks before its end. -/
theorem record_pages_complete_iff (hf : env.sqlite.rowFault = none) (hs : Synced db)
    (hb : ValidBits bits) {perPage perRecord : UInt32} (hpos : 0 < perPage)
    (hfields : ∀ r, (db.entries.toList.filter fun x => shrOf bits x.1 = r).length ≤ perRecord.toNat)
    (hfit : (pageCount env e query perPage db bits + 1) * perPage.toNat *
      (atLeastOne perRecord).toNat < 2 ^ 32) :
    PagesComplete env e query perPage perRecord db bits ↔
      ∃ rows, matchedRows env e query db = .ok rows ∧
        RecordsShown bits perPage.toNat (atLeastOne perRecord).toNat rows := by
  have hsize : 0 < perPage.toNat := UInt32.lt_iff_toNat_lt.mp hpos
  have hpage : ∀ p ≤ pageCount env e query perPage db bits,
      ((searchRecordsPage env e query perPage (UInt32.ofNat p) perRecord).run
          (quiet db none bits false)).1 =
        outcome ((matchedRows env e query db).map
          fun rows => pageOf bits perPage.toNat (atLeastOne perRecord).toNat rows p) := by
    intro p hp
    refine searchRecordsPage_run hf hb (lt_of_le_of_lt ?_ hfit) hpos
    gcongr
  cases hrows : matchedRows env e query db with
  | error err =>
    constructor
    · rintro ⟨n, page, hok, _⟩
      have hzero := hok 0 (Nat.zero_le _)
      rw [hpage 0 (Nat.zero_le _), hrows] at hzero
      cases hzero
    · rintro ⟨rows, hok, _⟩
      cases hok
  | ok rows =>
    obtain ⟨hsorted, hstored⟩ := matchedRows_ok hs hrows
    have hmany := fieldRows_count bits hstored
      fun r => (hfields r).trans (le_atLeastOne perRecord)
    have hcount : pageCount env e query perPage db bits =
        count (ranking (fieldRows bits rows)) perPage.toNat := by
      rw [pageCount, hrows]
    rw [hcount] at hpage hfit
    simp only [hrows, Except.map, outcome] at hpage
    have hlen : rows.length < 2 ^ 32 := (rows_length_le hsize hmany).trans_lt hfit
    have htotal := matchCountRecords_run hf hb hrows hlen perRecord
    have hmatching : ∀ r, MatchingRecord env e query db bits r ↔
        ∃ h ∈ rows, shrOf bits h.id = r := matchingRecord_iff hrows
    have hperm := records_perm_iff (pages_subset bits perPage.toNat
      (atLeastOne perRecord).toNat hsorted (count (ranking (fieldRows bits rows)) perPage.toNat))
    rw [pages_perm_ranking_iff hsorted hsize hmany] at hperm
    constructor
    · rintro ⟨n, page, hok, hne, hnil, hnodup, hids, _⟩
      have hsame : ∀ p ≤ n, p ≤ count (ranking (fieldRows bits rows)) perPage.toNat →
          page p = pageOf bits perPage.toNat (atLeastOne perRecord).toNat rows p := by
        intro p hp hp'
        have h := hok p hp
        rw [hpage p hp', Outcome.ok.injEq] at h
        exact h.symm
      obtain rfl := pages_end hsorted hsize hmany hsame hne hnil
      have hflat : (List.range (count (ranking (fieldRows bits rows)) perPage.toNat)).flatMap page =
          (List.range (count (ranking (fieldRows bits rows)) perPage.toNat)).flatMap
            (pageOf bits perPage.toNat (atLeastOne perRecord).toNat rows) :=
        List.flatMap_congr fun p hp => hsame p (List.mem_range.mp hp).le (List.mem_range.mp hp).le
      rw [hflat] at hnodup hids
      simp only [hmatching] at hids
      exact ⟨rows, rfl, hperm.mpr ⟨hnodup, hids⟩⟩
    · rintro ⟨rows', heq, hshown⟩
      rw [← Except.ok.inj heq] at hshown
      obtain ⟨hnodup, hids⟩ := hperm.mp hshown
      refine ⟨count (ranking (fieldRows bits rows)) perPage.toNat,
        pageOf bits perPage.toNat (atLeastOne perRecord).toNat rows, hpage, fun p hp => ?_, ?_,
        hnodup, fun r => (hids r).trans (hmatching r).symm, ?_⟩
      · rw [Ne, pageOf_eq_nil_iff hsorted hsize hmany]
        omega
      · exact (pageOf_eq_nil_iff hsorted hsize hmany _).mpr (le_refl _)
      · have hlength := ((pages_perm_ranking_iff hsorted hsize hmany).mpr hshown).length_eq
        have hkeys := (ranking_keys_perm (fieldRows bits rows)).length_eq
        rw [fieldRows_keys, List.length_map, List.dedup_map_of_injective
          (fun a b h => Int64.toInt_inj.mp h), List.length_map] at hkeys
        rw [List.length_map, hkeys] at hlength
        rw [htotal, hlength]

/-- Two records whose order by text is not their order by id. -/
def swappedActions : List Action :=
  [.reopen (.withConfig { normalize := .loose, strategy := .prefixMatch, fieldBits := none }),
    .call (.indexRecord 1 [{ slot := 0, text := ['a', 'b'] }]),
    .call (.indexRecord 2 [{ slot := 0, text := ['a', 'a'] }])]

def swappedHost : Host := Host.run .ascii {} swappedActions

def swappedEngine : SearchEngine :=
  { options := NormalizeProfile.loose.options, strategy := .prefixMatch }

/-- With one record a page, record 2 is on both pages and record 1 on none. -/
theorem swappedHost_pages :
    (swappedHost.opened = some { engine := swappedEngine, fieldBits := DEFAULT_FIELD_BITS } ∧
      swappedHost.file.entries.toList.map (fun x => shrOf DEFAULT_FIELD_BITS x.1) = [1, 2] ∧
      pageCount .ascii swappedEngine ['a'] 1 swappedHost.file DEFAULT_FIELD_BITS = 2 ∧
      pageCount .ascii swappedEngine ['a'] 2 swappedHost.file DEFAULT_FIELD_BITS = 1 ∧
      swappedHost.file.entries.toList.map Prod.fst = [256, 512]) ∧
    ((searchRecordsPage .ascii swappedEngine ['a'] 1 (UInt32.ofNat 0) 1).run
        (quiet swappedHost.file none DEFAULT_FIELD_BITS false)).1 =
      .ok [{ recordId := 2, score := 0, matchedSlots := [0] }] ∧
    ((searchRecordsPage .ascii swappedEngine ['a'] 1 (UInt32.ofNat 1) 1).run
        (quiet swappedHost.file none DEFAULT_FIELD_BITS false)).1 =
      .ok [{ recordId := 2, score := 0, matchedSlots := [0] }] := by
  decide +kernel

theorem swappedHost_fields (r : Int64) :
    (swappedHost.file.entries.toList.filter fun x =>
      shrOf DEFAULT_FIELD_BITS x.1 = r).length ≤ (1 : UInt32).toNat := by
  have hle := List.nodup_iff_count_le_one.mp (show [(1 : Int64), 2].Nodup by decide) r
  rw [← swappedHost_pages.1.2.1, List.count_eq_countP, List.countP_map,
    List.countP_eq_length_filter] at hle
  exact hle

theorem record_pages_not_complete :
    ¬ ∀ (actions : List Action) (o : OpenEngine) (query : Text) (perPage perRecord : UInt32),
      (Host.run .ascii {} actions).opened = some o → 0 < perPage →
      (∀ r, ((Host.run .ascii {} actions).file.entries.toList.filter fun x =>
        shrOf o.fieldBits x.1 = r).length ≤ perRecord.toNat) →
      (pageCount .ascii o.engine query perPage (Host.run .ascii {} actions).file o.fieldBits + 1) *
        perPage.toNat * (atLeastOne perRecord).toNat < 2 ^ 32 →
      PagesComplete .ascii o.engine query perPage perRecord (Host.run .ascii {} actions).file
        o.fieldBits := by
  intro h
  obtain ⟨⟨hopened, _, hcount, _, _⟩, hfirst, hsecond⟩ := swappedHost_pages
  obtain ⟨n, page, hok, _, hnil, hnodup, _⟩ := h swappedActions _ ['a'] 1 1 hopened
    (by decide) swappedHost_fields (by
      change (pageCount .ascii swappedEngine ['a'] 1 swappedHost.file DEFAULT_FIELD_BITS + 1) * _ *
        _ < _
      rw [hcount]
      decide)
  change ∀ p ≤ n, ((searchRecordsPage .ascii swappedEngine ['a'] 1 (UInt32.ofNat p) 1).run
    (quiet swappedHost.file none DEFAULT_FIELD_BITS false)).1 = .ok (page p) at hok
  have hzero := hok 0 (Nat.zero_le _)
  rw [hfirst, Outcome.ok.injEq] at hzero
  rcases n with _ | _ | n
  · rw [← hzero] at hnil
    cases hnil
  · have hone := hok 1 (le_refl _)
    rw [hsecond, Outcome.ok.injEq] at hone
    rw [← hone] at hnil
    cases hnil
  · have hone := hok 1 (by omega)
    rw [hsecond, Outcome.ok.injEq] at hone
    rw [List.range_succ_eq_map, List.flatMap_cons, List.range_succ_eq_map, List.map_cons,
      List.flatMap_cons, ← hzero, ← hone] at hnodup
    simp at hnodup

/-- Pages of two records lose nothing here. -/
theorem record_pages_complete_swapped :
    PagesComplete .ascii swappedEngine ['a'] 2 1 swappedHost.file DEFAULT_FIELD_BITS ↔
      ∃ rows, matchedRows .ascii swappedEngine ['a'] swappedHost.file = .ok rows ∧
        RecordsShown DEFAULT_FIELD_BITS 2 1 rows :=
  have hfresh : Host.Ok .ascii {} := Host.fresh_ok
  have hsynced : Synced swappedHost.file := (Host.run_ok swappedActions hfresh).invariant.synced
  record_pages_complete_iff rfl hsynced validBits_default (by decide) swappedHost_fields
    (by rw [swappedHost_pages.1.2.2.2.1]; decide)

end SearchEngine

end Unfydqry
