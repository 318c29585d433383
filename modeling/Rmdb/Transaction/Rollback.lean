import Rmdb.Execution.Agree

/-!
# Rolling back a transaction

`TransactionManager::abort` goes through the write set backwards and takes every write back:
an inserted row is deleted, a deleted row is put back under its rid, an updated row gets
its old record again, and the indexes follow. The keys it removes are those of the record
that is there then; the keys it adds are those of the record in the write set.

Each inverse is right only in the state that the later inverses have left, which has the
records and the index contents of the state after the write but not its pages: pages
created meanwhile stay, and the trees may have another shape. So what is shown of a write
is that its inverse works on *every* table with the contents that the write left
(`Undoes`), and this composes (`Undoes.append`).

Between the statements of the transaction, other transactions may do anything to tables
that this one does not write.
-/

namespace Rmdb.Transaction

open Lib Record Index Execution Execution.Table

/-- What `abort` does for one write record. -/
def undo (w : WriteRecord) (t : Table) : Table × Option RMDBError :=
  match w with
  | .insert _ rid =>
    match t.fh.getRecord rid with
    | .error e => (t, some (.record e))
    | .ok record => t.removeRow rid record
  | .delete _ rid record => t.restoreRow rid record
  | .update _ rid oldRecord =>
    match t.fh.getRecord rid with
    | .error e => (t, some (.record e))
    | .ok current => t.replaceRow rid current oldRecord

/-- The open tables: `db_`, `fhs_` and `ihs_`. -/
abbrev Db := String → Option Table

/-- A round of the loop of `abort`. -/
def undoWrite (w : WriteRecord) (db : Db) : Db × Option RMDBError :=
  match db w.tabName with
  | none => (db, some (.tableNotFound w.tabName))
  | some t =>
    let (t, e) := undo w t
    (Function.update db w.tabName (some t), e)

/-- The loop of `abort`: the write set from its end. -/
def abort (writeSet : List WriteRecord) (db : Db) : Db × Option RMDBError := forEach undoWrite writeSet.reverse db

/-! ### One table -/

/-- The rollback of the writes takes every table with the contents of `t'` to one with those of `t`. -/
def Undoes (ws : List WriteRecord) (t t' : Table) : Prop :=
  ∀ s, s.Ok → Same t' s → ∃ s', forEach undo ws.reverse s = (s', none) ∧ s'.Ok ∧ Same t s'

theorem Undoes.nil (t : Table) : Undoes [] t t := fun s hs hsame => ⟨s, rfl, hs, hsame⟩

theorem Undoes.append {ws ws' : List WriteRecord} {t t₁ t₂ : Table} (h₁ : Undoes ws t t₁) (h₂ : Undoes ws' t₁ t₂) :
    Undoes (ws ++ ws') t t₂ := by
  intro s hs hsame
  obtain ⟨s₁, hrun₁, hs₁, hsame₁⟩ := h₂ s hs hsame
  obtain ⟨s₂, hrun₂, hs₂, hsame₂⟩ := h₁ s₁ hs₁ hsame₁
  refine ⟨s₂, ?_, hs₂, hsame₂⟩
  rw [List.reverse_append, forEach_append_ok hrun₁, hrun₂]

theorem Undoes.of_undo {w : WriteRecord} {t t' : Table}
    (h : ∀ s, s.Ok → Same t' s → ∃ s', undo w s = (s', none) ∧ s'.Ok ∧ Same t s') : Undoes [w] t t' := by
  intro s hs hsame
  obtain ⟨s', hrun, hs', hsame'⟩ := h s hs hsame
  exact ⟨s', by rw [List.reverse_singleton, forEach_cons_ok hrun]; rfl, hs', hsame'⟩

/-- What the rows done so far of a statement have made of the transaction: there are further writes, and their rollback
gives the table back. -/
structure Progress (s s' : Session) : Prop where
  ok : s'.table.Ok
  agrees : s'.table.Agrees
  tab : s'.table.tab = s.table.tab
  writes : ∃ ws, s'.writes = s.writes ++ ws ∧ (∀ w ∈ ws, w.tabName = s.table.tab.name) ∧ Undoes ws s.table s'.table

theorem Progress.refl {s : Session} (h : s.table.Ok) (ha : s.table.Agrees) : Progress s s :=
  ⟨h, ha, rfl, [], by simp, by simp, Undoes.nil _⟩

theorem Progress.trans {s s₁ s₂ : Session} (h₁ : Progress s s₁) (h₂ : Progress s₁ s₂) : Progress s s₂ := by
  obtain ⟨ws₁, hw₁, hname₁, hundo₁⟩ := h₁.writes
  obtain ⟨ws₂, hw₂, hname₂, hundo₂⟩ := h₂.writes
  refine ⟨h₂.ok, h₂.agrees, h₂.tab.trans h₁.tab, ws₁ ++ ws₂, ?_, ?_, hundo₁.append hundo₂⟩
  · rw [hw₂, hw₁, List.append_assoc]
  · intro w hw
    rcases List.mem_append.mp hw with hw | hw
    · exact hname₁ w hw
    · rw [hname₂ w hw, h₁.tab]

section Statements

variable {s s' : Session} {rid : Rid} (h : s.table.Ok) (ha : s.table.Agrees)
include h ha

/-- **An insertion** is taken back by deleting the row. -/
theorem insert_progress {values : List Value} (hrun : s.insert values = (s', none)) : Progress s s' := by
  obtain ⟨rec, rid, -, -, hw, hnone, -, hnew, hbec⟩ := Session.insert_cases h hrun
  refine ⟨hbec.ok, hbec.agrees fun index hi => (ha index hi).insert hnone (hnew index hi), hbec.tab, _, hw,
    by simp [WriteRecord.tabName], Undoes.of_undo ?_⟩
  intro u hu hsame
  have hstored : u.fh.records rid = some rec := by rw [hsame.records, hbec.records, Function.update_self]
  obtain ⟨u', hrem, hback⟩ := removeRow_spec hu hstored
  refine ⟨u', ?_, hback.ok, hbec.back hsame hback hnone fun index hi => delete_insert (hnew index hi)⟩
  simp only [undo, RmFileHandle.getRecord_eq hstored, hrem]

/-- **An update** is taken back by the update to the old record. -/
theorem updateRow_progress {setClauses : List SetClause} (hrun : s.updateRow setClauses rid = (s', none)) :
    Progress s s' := by
  obtain ⟨old, new, hold, -, hw, hno, hbec⟩ := Session.updateRow_cases h hrun
  have hnew : ∀ index ∈ s.table.tab.indexes, index.makeIndexKey old ≠ index.makeIndexKey new →
      s.table.entry index (index.key new) = none := by
    intro index hi hne
    by_contra hold'
    exact hno index hi ⟨hne, hold'⟩
  refine ⟨hbec.ok, hbec.agrees fun index hi => (ha index hi).move hold (hnew index hi), hbec.tab, _, hw,
    by simp [WriteRecord.tabName], Undoes.of_undo ?_⟩
  intro u hu hsame
  have hstored : u.fh.records rid = some new := by rw [hsame.records, hbec.records, Function.update_self]
  obtain ⟨u', hrep, hback⟩ := replaceRow_spec hu hstored new old
  refine ⟨u', ?_, hback.ok, hbec.back hsame hback hold fun index hi =>
    move_move ((ha index hi).entry hold) (hnew index hi)⟩
  simp only [undo, RmFileHandle.getRecord_eq hstored, hrep]

/-- **A deletion** is taken back by putting the row under its rid again. -/
theorem deleteRow_progress (hrun : s.deleteRow rid = (s', none)) : Progress s s' := by
  obtain ⟨rec, hrec, hw, hbec⟩ := Session.deleteRow_cases h hrun
  refine ⟨hbec.ok, hbec.agrees fun index hi => (ha index hi).delete hrec, hbec.tab, _, hw,
    by simp [WriteRecord.tabName], Undoes.of_undo ?_⟩
  intro u hu hsame
  have hnone : u.fh.records rid = none := by rw [hsame.records, hbec.records, Function.update_self]
  have hridok : RmFileHandle.RidOk u.fh.numRecordsPerPage rid := by
    rw [hsame.per, hbec.per]
    exact (RmFileHandle.inFile_of_records hrec).ridOk
  obtain ⟨u', hres, hback⟩ := restoreRow_spec hu rec hridok hnone
  exact ⟨u', hres, hback.ok, hbec.back hsame hback hrec fun index hi => insert_delete ((ha index hi).entry hrec)⟩

/-- **A statement that completes** can be taken back. -/
theorem exec_progress {stmt : Stmt} (hrun : stmt.exec s = (s', none)) : Progress s s' := by
  cases stmt with
  | insert values => exact insert_progress h ha hrun
  | update setClauses rids =>
    refine forEach_ok_inv (P := Progress s) hrun (Progress.refl h ha) ?_
    intro rid _ s₁ s₂ h₁ hrow
    exact h₁.trans (updateRow_progress h₁.ok h₁.agrees hrow)
  | delete rids =>
    refine forEach_ok_inv (P := Progress s) hrun (Progress.refl h ha) ?_
    intro rid _ s₁ s₂ h₁ hrow
    exact h₁.trans (deleteRow_progress h₁.ok h₁.agrees hrow)

end Statements

/-! ### The transaction -/

/-- A transaction from the database `db₀` on, while it runs: its statements are about tables of `T`, and others change
none of these. -/
inductive Txn (T : Set String) (db₀ : Db) : Db → List WriteRecord → Prop where
  /-- `begin`. -/
  | beginTxn : Txn T db₀ db₀ []
  /-- A statement of the transaction completes. -/
  | stmt {db : Db} {ws ws' : List WriteRecord} {name : String} {t t' : Table} (stmt : Stmt) : Txn T db₀ db ws → name ∈ T →
      db name = some t → stmt.exec ⟨t, ws⟩ = (⟨t', ws'⟩, none) → Txn T db₀ (Function.update db name (some t')) ws'
  /-- Others do something to other tables. -/
  | other {db db' : Db} {ws : List WriteRecord} : Txn T db₀ db ws → (∀ name ∈ T, db' name = db name) → Txn T db₀ db' ws

/-- The tables of `T` are there under their names, in order, and agree with their indexes. -/
def Sound (T : Set String) (db : Db) : Prop :=
  ∀ name ∈ T, ∀ t, db name = some t → t.Ok ∧ t.Agrees ∧ t.tab.name = name

/-- The tables of `T` are the same, as far as records and the contents of indexes go. -/
def SameOn (T : Set String) (db db' : Db) : Prop :=
  ∀ name ∈ T, (db name = none ∧ db' name = none) ∨ ∃ t t', db name = some t ∧ db' name = some t' ∧ t'.Ok ∧ Same t t'

/-- The rollback of writes to one table is a rollback in that table. -/
theorem forEach_undoWrite {name : String} : ∀ {ws : List WriteRecord} {db : Db} {t t' : Table}, (∀ w ∈ ws, w.tabName = name) →
    db name = some t → forEach undo ws t = (t', none) →
    forEach undoWrite ws db = (Function.update db name (some t'), none)
  | [], db, t, t', _, hdb, hrun => by
    cases hrun
    rw [← hdb, Function.update_eq_self]
    rfl
  | w :: ws, db, t, t', hname, hdb, hrun => by
    obtain rfl := hname w List.mem_cons_self
    rcases hw : undo w t with ⟨t₁, _ | e⟩
    · rw [forEach_cons_ok hw] at hrun
      have hround : undoWrite w db = (Function.update db w.tabName (some t₁), none) := by simp only [undoWrite, hdb, hw]
      rw [forEach_cons_ok hround,
        forEach_undoWrite (fun x hx => hname x (List.mem_cons_of_mem _ hx)) (Function.update_self ..) hrun,
        Function.update_idem]
    · rw [forEach_cons_error hw] at hrun
      cases hrun

/-- **A transaction can be rolled back** at any time, from every database with the contents it has then. -/
theorem Txn.rolls_back {T : Set String} {db₀ db : Db} {ws : List WriteRecord} (hsound : Sound T db₀) (h : Txn T db₀ db ws) :
    Sound T db ∧ ∀ d, SameOn T db d →
      ∃ d', abort ws d = (d', none) ∧ SameOn T db₀ d' ∧ ∀ name, name ∉ T → d' name = d name := by
  induction h with
  | beginTxn => exact ⟨hsound, fun d hd => ⟨d, rfl, hd, fun _ _ => rfl⟩⟩
  | other _ hsame ih =>
    refine ⟨fun name hn t ht => ih.1 name hn t (by rw [← hsame name hn]; exact ht), fun d hd => ih.2 d ?_⟩
    intro name hn
    rw [← hsame name hn]
    exact hd name hn
  | @stmt db ws ws' name t t' stmt _ hname hdb hrun ih =>
    obtain ⟨ihs, ihback⟩ := ih
    obtain ⟨hok, hagrees, htab⟩ := ihs name hname t hdb
    have hprog : Progress ⟨t, ws⟩ ⟨t', ws'⟩ := exec_progress hok hagrees hrun
    obtain ⟨ws₁, hws, hnames, hundo⟩ := hprog.writes
    simp only at hws hnames hundo
    constructor
    · intro name' hn u hu
      by_cases hnn : name' = name
      · subst hnn
        rw [Function.update_self] at hu
        cases hu
        exact ⟨hprog.ok, hprog.agrees, by rw [hprog.tab]; exact htab⟩
      · rw [Function.update_of_ne hnn] at hu
        exact ihs name' hn u hu
    · intro d hd
      -- the writes of the statement first
      rcases hd name hname with ⟨hno, -⟩ | ⟨u, v, hu, hv, hvok, hsame⟩
      · rw [Function.update_self] at hno
        cases hno
      · rw [Function.update_self] at hu
        cases hu
        obtain ⟨v', hback, hvok', hsame'⟩ := hundo v hvok hsame
        have hnames' : ∀ w ∈ ws₁.reverse, w.tabName = name := fun w hw => by
          rw [hnames w (List.mem_reverse.mp hw)]
          exact htab
        have hfirst := forEach_undoWrite hnames' hv hback
        obtain ⟨d', hrest, hsame₀, hothers⟩ := ihback (Function.update d name (some v')) fun name' hn => by
          by_cases hnn : name' = name
          · subst hnn
            exact Or.inr ⟨t, v', hdb, Function.update_self .., hvok', hsame'⟩
          · have := hd name' hn
            rwa [Function.update_of_ne hnn] at this ⊢
        refine ⟨d', ?_, hsame₀, ?_⟩
        · rw [abort, hws, List.reverse_append, forEach_append_ok hfirst]
          exact hrest
        · intro name' hn
          rw [hothers name' hn, Function.update_of_ne]
          rintro rfl
          exact hn hname

/-- **Rollback.** A transaction begins when the tables it is going to write agree with their indexes, and its statements
complete. Then `abort` returns, every record and every index entry of these tables is as it was at the beginning, and
the other tables are as `abort` found them. -/
theorem abort_restores {T : Set String} {db₀ db : Db} {ws : List WriteRecord} (hsound : Sound T db₀) (h : Txn T db₀ db ws) :
    ∃ db', abort ws db = (db', none) ∧
      (∀ name ∈ T, (db₀ name = none ∧ db' name = none) ∨ ∃ t₀ t', db₀ name = some t₀ ∧ db' name = some t' ∧
        t'.tab = t₀.tab ∧ (∀ rid, t'.fh.records rid = t₀.fh.records rid) ∧
        ∀ index ∈ t₀.tab.indexes, ∀ key, t'.entry index key = t₀.entry index key) ∧
      ∀ name, name ∉ T → db' name = db name := by
  obtain ⟨hs, hback⟩ := h.rolls_back hsound
  have hself : SameOn T db db := by
    intro name hn
    cases hdb : db name with
    | none => exact Or.inl ⟨rfl, rfl⟩
    | some t => exact Or.inr ⟨t, t, rfl, rfl, (hs name hn t hdb).1, Same.refl t⟩
  obtain ⟨db', hrun, hsame, hothers⟩ := hback db hself
  refine ⟨db', hrun, ?_, hothers⟩
  intro name hn
  rcases hsame name hn with hno | ⟨t₀, t', h₀, h', -, hst⟩
  · exact Or.inl hno
  · exact Or.inr ⟨t₀, t', h₀, h', hst.tab, fun rid => by rw [hst.records],
      fun index hi key => by rw [hst.entries index hi]⟩

/-- The state of a transaction's table and write set after a statement. -/
def after (stmt : Stmt) (s : Session) : Session := (stmt.exec s).1

theorem Txn.after {T : Set String} {db₀ db : Db} {ws : List WriteRecord} {t : Table} (h : Txn T db₀ db ws) (name : String)
    (hname : name ∈ T) (hdb : db name = some t) (stmt : Stmt) (hok : (stmt.exec ⟨t, ws⟩).2 = none) :
    Txn T db₀ (Function.update db name (some (after stmt ⟨t, ws⟩).table)) (after stmt ⟨t, ws⟩).writes :=
  Txn.stmt stmt h hname hdb (Prod.ext rfl hok)

/-- A transaction moves the key of the only row, inserts a row with the old key, deletes the first row and reuses its
slot. After the rollback the row is back in its slot, and the index leads to it. -/
theorem abort_restores_reused : ∃ db ws db' t', abort ws db = (db', none) ∧ db' "k" = some t' ∧ ws.length = 4 ∧
    t'.fh.records ⟨1, 0⟩ = some (intBytes 4 7) ∧ t'.fh.records ⟨1, 1⟩ = none ∧
    t'.entry ⟨"k", [colK]⟩ [7] = some ⟨1, 0⟩ ∧ t'.entry ⟨"k", [colK]⟩ [8] = none := by
  have hprog : Progress ⟨tableK, []⟩ (after (.insert [valueK 7]) ⟨tableK, []⟩) :=
    exec_progress tableK_spec.1 tableK_spec.2
      (show (Stmt.insert [valueK 7]).exec ⟨tableK, []⟩ = (after (.insert [valueK 7]) ⟨tableK, []⟩, none) from rfl)
  have hsound : Sound {"k"} fun _ => some (after (.insert [valueK 7]) ⟨tableK, []⟩).table := by
    rintro name rfl t ht
    obtain rfl := Option.some.inj ht
    exact ⟨hprog.ok, hprog.agrees, by rw [hprog.tab]; rfl⟩
  have h₀ : Txn {"k"} (fun _ => some (after (.insert [valueK 7]) ⟨tableK, []⟩).table) _ [] := .beginTxn
  have h₁ := h₀.after "k" rfl rfl (.update (setK 8) [⟨1, 0⟩]) (by decide +kernel)
  have h₂ := h₁.after "k" rfl (Function.update_self ..) (.insert [valueK 7]) (by decide +kernel)
  have h₃ := h₂.after "k" rfl (Function.update_self ..) (.delete [⟨1, 0⟩]) (by decide +kernel)
  have h₄ := h₃.after "k" rfl (Function.update_self ..) (.insert [valueK 9]) (by decide +kernel)
  obtain ⟨db', hrun, hsame, -⟩ := abort_restores hsound h₄
  rcases hsame "k" rfl with ⟨hno, -⟩ | ⟨t₀, t', h₀, h', -, hrecords, hentries⟩
  · cases hno
  · obtain rfl := Option.some.inj h₀
    refine ⟨_, _, db', t', hrun, h', by decide +kernel, ?_, ?_, ?_, ?_⟩
    · rw [hrecords]
      decide +kernel
    · rw [hrecords]
      decide +kernel
    · rw [hentries _ (by decide +kernel)]
      decide +kernel
    · rw [hentries _ (by decide +kernel)]
      decide +kernel

end Rmdb.Transaction
