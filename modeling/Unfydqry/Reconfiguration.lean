import Unfydqry.IndexMachine

/-! # Reconfiguration loses nothing

Opening with other options, rebuilding, `reindex` and changes of `field_bits` re-key the
texts and make their forms again. Every text stays under its record and slot, and a file that
is back under its first options and width is the first file. -/

namespace Unfydqry

open LockedStore Prog SearchEngine

/-- The record and the slot of an id. -/
def decodedId (width : UInt8) (id : Int64) : ℤ × ℤ :=
  (id.toInt / 2 ^ width.toNat, id.toInt % 2 ^ width.toNat)

theorem decodedId_injective {width : UInt8} {id id' : Int64}
    (h : decodedId width id = decodedId width id') : id = id' := by
  obtain ⟨hdiv, hmod⟩ := Prod.mk.inj h
  apply Int64.toInt_inj.mp
  rw [← Int.mul_ediv_add_emod id.toInt (2 ^ width.toNat),
    ← Int.mul_ediv_add_emod id'.toInt (2 ^ width.toNat), hdiv, hmod]

/-- The texts of two files by id, each with its width: every text of the first is in the
second, under the same record and slot. -/
def Carried (width : UInt8) (texts : Int64 → Option Text) (width' : UInt8)
    (texts' : Int64 → Option Text) : Prop :=
  ∀ id text, texts id = some text →
    ∃ id', texts' id' = some text ∧ decodedId width' id' = decodedId width id

/-- The texts are the same, record by record and slot by slot. -/
structure Rekeyed (width : UInt8) (texts : Int64 → Option Text) (width' : UInt8)
    (texts' : Int64 → Option Text) : Prop where
  kept : Carried width texts width' texts'
  only : Carried width' texts' width texts

theorem Carried.trans {w w' w'' : UInt8} {t t' t'' : Int64 → Option Text}
    (h : Carried w t w' t') (h' : Carried w' t' w'' t'') : Carried w t w'' t'' := by
  intro id text ht
  obtain ⟨id', ht', hd⟩ := h id text ht
  obtain ⟨id'', ht'', hd'⟩ := h' id' text ht'
  exact ⟨id'', ht'', hd'.trans hd⟩

namespace Rekeyed

variable {w w' w'' : UInt8} {t t' t'' : Int64 → Option Text}

theorem refl (w : UInt8) (t : Int64 → Option Text) : Rekeyed w t w t :=
  ⟨fun id _ ht => ⟨id, ht, rfl⟩, fun id _ ht => ⟨id, ht, rfl⟩⟩

theorem trans (h : Rekeyed w t w' t') (h' : Rekeyed w' t' w'' t'') : Rekeyed w t w'' t'' :=
  ⟨h.kept.trans h'.kept, h'.only.trans h.only⟩

/-- Back under the first width, every text has its first id. -/
theorem eq (h : Rekeyed w t w t') : t' = t := by
  funext id
  cases ht : t id with
  | some text =>
    obtain ⟨id', ht', hd⟩ := h.kept id text ht
    rwa [← decodedId_injective hd]
  | none =>
    cases ht' : t' id with
    | none => rfl
    | some text =>
      obtain ⟨id', hback, hd⟩ := h.only id text ht'
      rw [decodedId_injective hd, ht] at hback
      cases hback

end Rekeyed

/-- The texts of a catalog, as a function. -/
def Catalog.at (texts : Catalog) (id : Int64) : Option Text := texts[id]?

theorem Catalog.lookup_repacked {old new : UInt8} {texts : Catalog} (ho : ValidBits old)
    (hn : ValidBits new) (hfits : Stamp.Fits old new texts) (id' : Int64) (text : Text) :
    (Catalog.repacked old new texts)[id']? = some text ↔
      ∃ id, texts[id]? = some text ∧ SearchEngine.repacked old new id = id' := by
  have hkeys : ((texts.toList.map fun r =>
      (SearchEngine.repacked old new r.1, r.2)).map Prod.fst).Nodup := by
    rw [List.map_map]
    apply List.Nodup.map_on _ (List.Nodup.of_map _ (Table.toList_nodup texts))
    intro r hr r' hr' heq
    have hid : r.1 = r'.1 := repacked_injective ho hn (hfits r hr) (hfits r' hr') heq
    have htext : some r.2 = some r'.2 := by
      rw [← (Table.mem_toList texts r.1 r.2).mp hr, hid, (Table.mem_toList texts r'.1 r'.2).mp hr']
    exact Prod.ext hid (Option.some_inj.mp htext)
  rw [Catalog.repacked, ← Table.mem_toList, (Table.toList_insertRows_perm hkeys).mem_iff,
    List.mem_map]
  constructor
  · intro h
    obtain ⟨r, hr, heq⟩ := h
    obtain ⟨hid, htext⟩ := Prod.mk.inj heq
    refine ⟨r.1, ?_, hid⟩
    rw [← htext]
    exact (Table.mem_toList texts r.1 r.2).mp hr
  · intro h
    obtain ⟨id, hid, heq⟩ := h
    exact ⟨(id, text), (Table.mem_toList texts id text).mpr hid, by rw [heq]⟩

theorem Catalog.rekeyed_repacked {old new : UInt8} {texts : Catalog} (ho : ValidBits old)
    (hn : ValidBits new) (hfits : Stamp.Fits old new texts) :
    Rekeyed old texts.at new (Catalog.repacked old new texts).at := by
  have hdecode : ∀ id text, texts[id]? = some text →
      decodedId new (SearchEngine.repacked old new id) = decodedId old id := by
    intro id text ht
    have hok := hfits (id, text) ((Table.mem_toList texts id text).mpr ht)
    obtain ⟨hdiv, hmod⟩ := repacked_decode ho hn hok
    exact Prod.ext hdiv hmod
  constructor
  · intro id text ht
    exact ⟨_, (Catalog.lookup_repacked ho hn hfits _ text).mpr ⟨id, ht, rfl⟩, hdecode id text ht⟩
  · intro id' text ht'
    obtain ⟨id, ht, heq⟩ := (Catalog.lookup_repacked ho hn hfits id' text).mp ht'
    exact ⟨id, ht, by rw [← heq, hdecode id text ht]⟩

/-- Everything but a write of texts: opens of any kind, `reindex`, a change of width, reads. -/
def Action.Reconfigures : Action → Prop
  | .call .reindex | .call (.changeFieldBits _) => True
  | .call c => ¬ c.Mutating
  | .reopen _ | .close => True

namespace Index

variable {env : Env}

/-- The stamp and the texts of a file that has been accepted. -/
def kept : Index → Option (Stamp × Catalog)
  | .closed s texts | .opened s _ texts => some (s, texts)
  | _ => none

theorem kept_call {i : Index} {s : Stamp} {texts : Catalog} (hi : i.kept = some (s, texts))
    {c : Call} (hc : (Action.call c).Reconfigures) :
    ∃ s' texts', (i.call env c).kept = some (s', texts') ∧
      Rekeyed s.width texts.at s'.width texts'.at := by
  have hsame : ∃ s' texts', i.kept = some (s', texts') ∧
      Rekeyed s.width texts.at s'.width texts'.at :=
    ⟨s, texts, hi, .refl _ _⟩
  cases i with
  | fresh => cases hi
  | rejected => cases hi
  | closed s₀ texts₀ => exact hsame
  | opened s₀ strategy texts₀ =>
    obtain ⟨rfl, rfl⟩ := Prod.mk.inj (Option.some_inj.mp hi)
    by_cases hacc : s₀.Accepts texts₀ c
    · rw [Index.call, if_pos hacc]
      cases c with
      | changeFieldBits new =>
        have hv := hacc.1
        have hnext : s₀.next (.changeFieldBits new) = { s₀ with width := new, valid := hv } :=
          dif_pos hv
        by_cases hnew : new = s₀.width
        · refine ⟨_, _, rfl, ?_⟩
          rw [hnext, Call.keeps, if_pos hnew, ← hnew]
          exact .refl _ _
        · refine ⟨_, _, rfl, ?_⟩
          rw [hnext, Call.keeps, if_neg hnew]
          exact Catalog.rekeyed_repacked s₀.valid hv (hacc.2.resolve_left hnew)
      | reindex => exact ⟨s₀, texts₀, rfl, .refl _ _⟩
      | index _ _ => exact absurd trivial hc
      | remove _ => exact absurd trivial hc
      | indexBatch _ => exact absurd trivial hc
      | removeBatch _ => exact absurd trivial hc
      | removeAll => exact absurd trivial hc
      | indexRecord _ _ => exact absurd trivial hc
      | indexRecordsBatch _ => exact absurd trivial hc
      | removeRecord _ => exact absurd trivial hc
      | _ => exact ⟨s₀, texts₀, rfl, .refl _ _⟩
    · rw [Index.call, if_neg hacc]
      exact hsame

theorem reopen_granted {i : Index} {s s' : Stamp} {texts : Catalog} {r : OpenRequest}
    (hi : i.kept = some (s, texts)) (hg : s.grant texts r = some s') :
    i.reopen r = .opened s' r.strategy texts := by
  cases i with
  | fresh => cases hi
  | rejected => cases hi
  | closed s₀ texts₀ =>
    obtain ⟨rfl, rfl⟩ := Prod.mk.inj (Option.some_inj.mp hi)
    rw [reopen, hg]
  | opened s₀ strategy texts₀ =>
    obtain ⟨rfl, rfl⟩ := Prod.mk.inj (Option.some_inj.mp hi)
    rw [reopen, hg]

theorem reopen_refused {i : Index} {s : Stamp} {texts : Catalog} {r : OpenRequest}
    (hi : i.kept = some (s, texts)) (hg : s.grant texts r = none) :
    i.reopen r = .closed s texts := by
  cases i with
  | fresh => cases hi
  | rejected => cases hi
  | closed s₀ texts₀ =>
    obtain ⟨rfl, rfl⟩ := Prod.mk.inj (Option.some_inj.mp hi)
    rw [reopen, hg]
  | opened s₀ strategy texts₀ =>
    obtain ⟨rfl, rfl⟩ := Prod.mk.inj (Option.some_inj.mp hi)
    rw [reopen, hg]

/-- An open keeps the texts; only a file without rows may take another width. -/
theorem kept_reopen {i : Index} {s : Stamp} {texts : Catalog} (hi : i.kept = some (s, texts))
    (r : OpenRequest) :
    ∃ s', (i.reopen r).kept = some (s', texts) ∧ Rekeyed s.width texts.at s'.width texts.at := by
  cases hgrant : s.grant texts r with
  | none =>
    rw [reopen_refused hi hgrant]
    exact ⟨s, rfl, .refl _ _⟩
  | some s' =>
    rw [reopen_granted hi hgrant]
    refine ⟨s', rfl, ?_⟩
    unfold Stamp.grant at hgrant
    split at hgrant
    · rename_i hsize
      have hempty : ∀ id, texts.at id = none := by
        have htexts : texts = ∅ := Std.ExtTreeMap.eq_empty_iff_size_eq_zero.mpr hsize
        intro id
        rw [Catalog.at, htexts, Table.lookup_empty]
      constructor
      · intro id text ht
        rw [hempty] at ht
        cases ht
      · intro id text ht
        rw [hempty] at ht
        cases ht
    · split at hgrant
      · obtain rfl := Option.some_inj.mp hgrant
        exact .refl _ _
      · cases hgrant

theorem kept_step {i : Index} {s : Stamp} {texts : Catalog} (hi : i.kept = some (s, texts))
    {a : Action} (ha : a.Reconfigures) :
    ∃ s' texts', (i.step env a).kept = some (s', texts') ∧
      Rekeyed s.width texts.at s'.width texts'.at := by
  cases a with
  | call c =>
    exact kept_call hi ha
  | reopen c =>
    obtain ⟨s', hkept, hrekeyed⟩ := kept_reopen hi c.request
    exact ⟨s', texts, hkept, hrekeyed⟩
  | close =>
    refine ⟨s, texts, ?_, .refl _ _⟩
    cases i with
    | fresh => cases hi
    | rejected => cases hi
    | closed s₀ texts₀ => exact hi
    | opened s₀ strategy texts₀ => exact hi

theorem kept_run (actions : List Action) {i : Index} {s : Stamp} {texts : Catalog}
    (hi : i.kept = some (s, texts)) (ha : ∀ a ∈ actions, a.Reconfigures) :
    ∃ s' texts', (i.run env actions).kept = some (s', texts') ∧
      Rekeyed s.width texts.at s'.width texts'.at := by
  induction actions generalizing i s texts with
  | nil => exact ⟨s, texts, hi, .refl _ _⟩
  | cons a actions ih =>
    rw [List.forall_mem_cons] at ha
    obtain ⟨s₁, texts₁, hkept, hfirst⟩ := kept_step hi ha.1
    obtain ⟨s₂, texts₂, hkept', hrest⟩ := ih hkept ha.2
    exact ⟨s₂, texts₂, hkept', hfirst.trans hrest⟩

end Index

/-- The raw text under an id. -/
def Host.text (h : Host) (id : Int64) : Option Text := h.file.entries[id]?.bind Entry.raw

theorem Stamp.text_file (env : Env) (s : Stamp) (texts : Catalog) (id : Int64) :
    (s.file env texts).entries[id]?.bind Entry.raw = texts.at id := by
  rw [Stamp.file_renders.entries_lookup, Catalog.at]
  cases texts[id]? <;> rfl

/-- After any history, opens of any kind, rebuilds, reindexes and changes of width keep every
text under its record and slot, and a file that is back under its options and its width is
the file it was. -/
theorem reconfiguration_lossless (env : Env) (history : List Action) {actions : List Action}
    (ha : ∀ a ∈ actions, a.Reconfigures) {o o' : OpenEngine}
    (ho : (Host.run env {} history).opened = some o)
    (ho' : ((Host.run env {} history).run env actions).opened = some o') :
    Rekeyed o.fieldBits (Host.run env {} history).text o'.fieldBits
        ((Host.run env {} history).run env actions).text ∧
      (o'.engine.options = o.engine.options → o'.fieldBits = o.fieldBits →
        ((Host.run env {} history).run env actions).file = (Host.run env {} history).file) := by
  obtain ⟨s, strategy, texts, _, hhost, rfl⟩ := Index.open_run ho
  rw [hhost, Index.host_run] at ho'
  rw [hhost, Index.host_run]
  obtain ⟨s', texts', hkept, hrekeyed⟩ :=
    Index.kept_run actions (i := .opened s strategy texts) rfl ha
  obtain ⟨s₁, strategy₁, texts₁, hj, rfl⟩ := Index.host_opened ho'
  rw [hj] at hkept ⊢
  obtain ⟨rfl, rfl⟩ := Prod.mk.inj (Option.some_inj.mp hkept)
  refine ⟨?_, ?_⟩
  · have htext : (Index.host env (.opened s strategy texts)).text = texts.at :=
      funext fun id => Stamp.text_file env s texts id
    have htext' : (Index.host env (.opened s₁ strategy₁ texts₁)).text = texts₁.at :=
      funext fun id => Stamp.text_file env s₁ texts₁ id
    rw [htext, htext']
    exact hrekeyed
  · intro hoptions hwidth
    change s₁.options = s.options at hoptions
    change s₁.width = s.width at hwidth
    rw [hwidth] at hrekeyed
    have htexts : texts₁ = texts :=
      Table.ext_lookup fun id => congrFun hrekeyed.eq id
    obtain ⟨options₁, width₁, valid₁⟩ := s₁
    subst hoptions hwidth htexts
    rfl

def twoFields : List Action :=
  [.reopen plainOptions,
    .call (.indexRecord 1 [{ slot := 0, text := ['A'] }, { slot := 3, text := ['b'] }])]

/-- Another width, other options, and back. -/
def thereAndBack : List Action :=
  [.call (.changeFieldBits 4),
    .reopen (.withOptionsRebuilding
      { normalize := { lowercase := true }, strategy := .prefixMatch, fieldBits := none }),
    .call .reindex, .call (.changeFieldBits 8),
    .reopen (.withOptionsRebuilding
      { normalize := {}, strategy := .substring, fieldBits := some 8 })]

theorem reconfiguration_lossless_back :
    ((Host.run .ascii {} twoFields).run .ascii thereAndBack).file =
      (Host.run .ascii {} twoFields).file := by
  have ho : (Host.run .ascii {} twoFields).opened =
      some { engine := plainEngine, fieldBits := 8 } := by decide +kernel
  have ho' : ((Host.run .ascii {} twoFields).run .ascii thereAndBack).opened =
      some { engine := plainEngine, fieldBits := 8 } := by decide +kernel
  have ha : ∀ a ∈ thereAndBack, a.Reconfigures := by
    simp [thereAndBack, Action.Reconfigures]
  exact (reconfiguration_lossless .ascii twoFields ha ho ho').2 rfl rfl

end Unfydqry
