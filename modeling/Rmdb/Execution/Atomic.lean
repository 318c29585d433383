import Rmdb.Execution.Agree

/-!
# Statements that fail

A statement that ends with an error should have changed nothing. `InsertExecutor` and
`UpdateExecutor` do not see to that: an `INSERT` finds out index by index whether its keys
are new, and the entries it has added to the indexes before stay; an `UPDATE` checks and
changes row by row, and the rows before the one that fails stay changed. Nothing takes
them back: `client_handler` commits the transaction, or leaves it open.

So a failed statement has changed nothing exactly if it failed before it had changed
anything (`failed_unchanged_iff`), which is a question about the table before it
(`FailsAtOnce`): for an `INSERT`, whether the *first* index has the key already; for an
`UPDATE`, whether the first row that the `SET` clauses really change has a new key that is
taken. Rows that an `UPDATE` leaves as they are do not count, whatever it does to them.

The rids of an `UPDATE` or a `DELETE` are any list: an index with entries that lead to no
record, or to another one, can make its scan return a rid twice.
-/

namespace Rmdb.Execution

open Lib Record Index Execution.Table

/-! ### The new record of an `UPDATE` -/

/-- A record in which every column of the table has its bytes. -/
def Fits (tab : TabMeta) (rec : Bytes) : Prop := ∀ c ∈ tab.cols, c.offset + c.len ≤ rec.length

/-- What the `SET` clauses do to every byte of a record of a given length: each byte is set to a constant, or left. -/
structure Sets (n : ℕ) (F : Bytes → Bytes) : Prop where
  length : ∀ rec, rec.length = n → (F rec).length = n
  byte : ∀ i : ℕ, (∃ c, ∀ rec, rec.length = n → (F rec)[i]? = c) ∨ ∀ rec, rec.length = n → (F rec)[i]? = rec[i]?

theorem Sets.id (n : ℕ) : Sets n fun rec => rec := ⟨fun _ h => h, fun _ => Or.inr fun _ _ => rfl⟩

theorem Sets.comp {n : ℕ} {F G : Bytes → Bytes} (hF : Sets n F) (hG : Sets n G) : Sets n fun rec => F (G rec) := by
  refine ⟨fun rec h => hF.length _ (hG.length rec h), ?_⟩
  intro i
  rcases hF.byte i with ⟨c, hc⟩ | hleft
  · exact Or.inl ⟨c, fun rec h => hc _ (hG.length rec h)⟩
  · rcases hG.byte i with ⟨c, hc⟩ | hleft'
    · exact Or.inl ⟨c, fun rec h => (hleft _ (hG.length rec h)).trans (hc rec h)⟩
    · exact Or.inr fun rec h => (hleft _ (hG.length rec h)).trans (hleft' rec h)

theorem Sets.put {n offset : ℕ} {src : Bytes} (h : offset + src.length ≤ n) : Sets n fun rec => put rec offset src := by
  refine ⟨fun rec hrec => (length_put (by omega)).trans hrec, ?_⟩
  intro i
  by_cases hi : offset ≤ i ∧ i < offset + src.length
  · exact Or.inl ⟨src[i - offset]?, fun rec hrec => by rw [getElem?_put (by omega), if_pos hi]⟩
  · exact Or.inr fun rec hrec => by rw [getElem?_put (by omega), if_neg hi]

/-- Doing it twice is doing it once. -/
theorem Sets.idem {n : ℕ} {F : Bytes → Bytes} (hF : Sets n F) {rec : Bytes} (h : rec.length = n) : F (F rec) = F rec := by
  refine List.ext_getElem? ?_
  intro i
  rcases hF.byte i with ⟨c, hc⟩ | hleft
  · rw [hc _ (hF.length rec h), hc rec h]
  · exact hleft _ (hF.length rec h)

theorem getCol_mem {tab : TabMeta} {colName : String} {col : ColMeta} (h : tab.getCol colName = .ok col) :
    col ∈ tab.cols := by
  unfold TabMeta.getCol at h
  split at h
  · rename_i c hc
    cases h
    exact List.mem_of_find?_eq_some hc
  · cases h

/-- **The `SET` clauses** fail on every record, or set bytes of every record to constants. -/
theorem setRecord_cases (tab : TabMeta) : ∀ setClauses : List SetClause,
    (∃ e, ∀ rec, setRecord tab setClauses rec = .error e) ∨
      ∃ F, (∀ rec, setRecord tab setClauses rec = .ok (F rec)) ∧ ∀ rec, Fits tab rec → Sets rec.length F
  | [] => Or.inr ⟨fun rec => rec, fun _ => rfl, fun rec _ => Sets.id _⟩
  | clause :: rest => by
    rcases hcol : tab.getCol clause.lhs.colName with e | col
    · exact Or.inl ⟨e, fun rec => by simp [setRecord, hcol, bind, Except.bind]⟩
    · rcases hraw : clause.rhs.raw with _ | raw
      · exact Or.inl ⟨.assertion, fun rec => by simp [setRecord, hcol, hraw, bind, Except.bind]⟩
      · have hstep : ∀ rec, setRecord tab (clause :: rest) rec =
            setRecord tab rest (put rec col.offset (raw.take col.len)) := fun rec => by
          simp [setRecord, hcol, hraw, bind, Except.bind]
        rcases setRecord_cases tab rest with ⟨e, he⟩ | ⟨F, hF, hsets⟩
        · exact Or.inl ⟨e, fun rec => by rw [hstep, he]⟩
        · refine Or.inr ⟨fun rec => F (put rec col.offset (raw.take col.len)), fun rec => by rw [hstep, hF], ?_⟩
          intro rec hrec
          have hin := hrec col (getCol_mem hcol)
          have hlen : (raw.take col.len).length ≤ col.len := by
            rw [List.length_take]
            omega
          exact (hsets rec hrec).comp (Sets.put (by omega))

/-- A record that the `SET` clauses have made is left by them as it is. -/
theorem setRecord_idem {tab : TabMeta} {setClauses : List SetClause} {old new : Bytes} (hfits : Fits tab old)
    (h : setRecord tab setClauses old = .ok new) : setRecord tab setClauses new = .ok new := by
  rcases setRecord_cases tab setClauses with ⟨e, he⟩ | ⟨F, hF, hsets⟩
  · rw [he] at h
    cases h
  · rw [hF] at h
    obtain rfl := Except.ok.inj h
    rw [hF, (hsets old hfits).idem rfl]

/-! ### Rows -/

section Rows

variable {s s' : Session} {setClauses : List SetClause} {rid : Rid} {e : RMDBError}

/-- **A row whose update fails** changes nothing: it has no record, or the clauses fail, or an index has its new
key. -/
theorem updateRow_error (h : s.table.Ok) (hrun : s.updateRow setClauses rid = (s', some e)) : s' = s ∧
    ∀ old new, s.table.fh.records rid = some old → setRecord s.table.tab setClauses old = .ok new →
      ∃ index ∈ s.table.tab.indexes, s.table.Rejects old new index := by
  unfold Session.updateRow at hrun
  split at hrun
  · rename_i err hget
    obtain ⟨rfl, -⟩ := Prod.mk.inj hrun
    refine ⟨rfl, ?_⟩
    intro old new hold _
    rw [RmFileHandle.getRecord_eq hold] at hget
    cases hget
  · rename_i old hget
    have hold := RmFileHandle.records_of_getRecord hget
    split at hrun
    · rename_i err hset
      obtain ⟨rfl, -⟩ := Prod.mk.inj hrun
      refine ⟨rfl, ?_⟩
      intro old' new hold' hset'
      obtain rfl := Option.some.inj (hold.symm.trans hold')
      rw [hset] at hset'
      cases hset'
    · rename_i new hset
      by_cases hrej : ∃ index ∈ s.table.tab.indexes, s.table.Rejects old new index
      · obtain ⟨err, hcheck⟩ := (checkEntries_spec h.indexes fun _ hi => hi).2 hrej
        rw [hcheck] at hrun
        obtain ⟨rfl, -⟩ := Prod.mk.inj hrun
        refine ⟨rfl, ?_⟩
        intro old' new' hold' hset'
        obtain rfl := Option.some.inj (hold.symm.trans hold')
        obtain rfl := Except.ok.inj (hset.symm.trans hset')
        exact hrej
      · -- the rest of the round cannot fail
        rw [(checkEntries_spec h.indexes fun _ hi => hi).1 fun i hi hi' => hrej ⟨i, hi, hi'⟩] at hrun
        obtain ⟨t', hrep, -⟩ := replaceRow_spec h hold old new
        simp only [hrep] at hrun
        cases hrun

/-- A row without a record, or whose new key is taken, fails. -/
theorem updateRow_fails (h : s.table.Ok) (setClauses : List SetClause) (rid : Rid)
    (hfail : ∀ old new, s.table.fh.records rid = some old →
      setRecord s.table.tab setClauses old = .ok new → ∃ index ∈ s.table.tab.indexes, s.table.Rejects old new index) :
    ∃ s' e, s.updateRow setClauses rid = (s', some e) ∧ s'.table = s.table := by
  rcases hrun : s.updateRow setClauses rid with ⟨s', _ | e⟩
  · obtain ⟨old, new, hold, hset, -, hno, -⟩ := Session.updateRow_cases h hrun
    obtain ⟨index, hi, hrej⟩ := hfail old new hold hset
    exact absurd hrej (hno index hi)
  · exact ⟨s', e, rfl, congrArg Session.table (updateRow_error h hrun).1⟩

/-- The clauses leave the row as it is. -/
def Idle (t : Table) (setClauses : List SetClause) (rid : Rid) : Prop :=
  ∃ rec, t.fh.records rid = some rec ∧ setRecord t.tab setClauses rec = .ok rec

theorem Idle.congr {t t' : Table} (h : Idle t setClauses rid) (hsame : Same t t') : Idle t' setClauses rid := by
  obtain ⟨rec, hrec, hset⟩ := h
  exact ⟨rec, by rw [hsame.records, hrec], by rw [hsame.tab, hset]⟩

/-- **An idle row** cannot fail, and its update changes nothing. -/
theorem updateRow_idle (h : s.table.Ok) (hidle : Idle s.table setClauses rid) :
    ∃ s', s.updateRow setClauses rid = (s', none) ∧ s'.table.Ok ∧ Same s.table s'.table := by
  obtain ⟨rec, hrec, hset⟩ := hidle
  rcases hrun : s.updateRow setClauses rid with ⟨s', _ | e⟩
  · obtain ⟨old, new, hold, hset', -, -, hbec⟩ := Session.updateRow_cases h hrun
    obtain rfl := Option.some.inj (hrec.symm.trans hold)
    obtain rfl := Except.ok.inj (hset.symm.trans hset')
    refine ⟨s', rfl, hbec.ok, hbec.tab, hbec.per, ?_, ?_⟩
    · rw [hbec.records, ← hrec, Function.update_eq_self]
    · intro index hi
      rw [hbec.entry index hi, moveMap, if_neg (by simp)]
  · obtain ⟨index, -, hne, -⟩ := (updateRow_error h hrun).2 rec rec hrec hset
    exact absurd rfl hne

theorem updateRows_idle : ∀ {rids : List Rid} {s : Session}, s.table.Ok → (∀ rid ∈ rids, Idle s.table setClauses rid) →
    ∃ s', forEach (Session.updateRow setClauses) rids s = (s', none) ∧ s'.table.Ok ∧ Same s.table s'.table
  | [], s, h, _ => ⟨s, rfl, h, Same.refl _⟩
  | rid :: rids, s, h, hidle => by
    obtain ⟨s₁, hrun, hok₁, hsame₁⟩ := updateRow_idle h (hidle rid List.mem_cons_self)
    obtain ⟨s', hrest, hok', hsame'⟩ := updateRows_idle hok₁ fun r hr => (hidle r (List.mem_cons_of_mem _ hr)).congr hsame₁
    exact ⟨s', by rw [forEach_cons_ok hrun, hrest], hok', hsame₁.trans hsame'⟩

/-- A row that has been changed stays idle. -/
theorem updateRows_stays {rids : List Rid} (h : s.table.Ok) (hidle : Idle s.table setClauses rid)
    (hrun : forEach (Session.updateRow setClauses) rids s = (s', none)) :
    s'.table.Ok ∧ s'.table.tab = s.table.tab ∧ Idle s'.table setClauses rid := by
  refine forEach_ok_inv (P := fun u => u.table.Ok ∧ u.table.tab = s.table.tab ∧ Idle u.table setClauses rid) hrun
    ⟨h, rfl, hidle⟩ ?_
  rintro r - u u' ⟨hu, htab, rec, hrec, hset⟩ hrow
  obtain ⟨old, new, hold, hset', -, -, hbec⟩ := Session.updateRow_cases hu hrow
  refine ⟨hbec.ok, hbec.tab.trans htab, rec, ?_, by rw [hbec.tab]; exact hset⟩
  rw [hbec.records]
  by_cases hr : r = rid
  · subst hr
    obtain rfl := Option.some.inj (hrec.symm.trans hold)
    obtain rfl := Except.ok.inj (hset.symm.trans hset')
    rw [Function.update_self]
  · rw [Function.update_of_ne (Ne.symm hr), hrec]

/-- **Rows whose updates together have changed no record** were all idle. -/
theorem updateRows_unchanged : ∀ {rids : List Rid} {s s' : Session}, s.table.Ok →
    (∀ rid rec, s.table.fh.records rid = some rec → Fits s.table.tab rec) →
    forEach (Session.updateRow setClauses) rids s = (s', none) → s'.table.fh.records = s.table.fh.records →
    ∀ rid ∈ rids, Idle s.table setClauses rid
  | [], _, _, _, _, _, _ => by simp
  | rid :: rids, s, s', h, hfits, hrun, hsame => by
    rcases hrow : s.updateRow setClauses rid with ⟨s₁, _ | e⟩
    · rw [forEach_cons_ok hrow] at hrun
      obtain ⟨old, new, hold, hset, -, -, hbec⟩ := Session.updateRow_cases h hrow
      have hidem := setRecord_idem (hfits rid old hold) hset
      have hidle₁ : Idle s₁.table setClauses rid :=
        ⟨new, by rw [hbec.records, Function.update_self], by rw [hbec.tab]; exact hidem⟩
      obtain ⟨-, htab', rec, hrec, hset'⟩ := updateRows_stays hbec.ok hidle₁ hrun
      -- the record is the old one again, and one that the clauses leave
      rw [hsame, hold] at hrec
      obtain rfl := Option.some.inj hrec
      rw [htab', hbec.tab] at hset'
      have hidle : Idle s.table setClauses rid := ⟨old, hold, hset'⟩
      obtain ⟨s₂, hrow₂, -, hsame₂⟩ := updateRow_idle h hidle
      obtain rfl : s₁ = s₂ := (Prod.mk.inj (hrow.symm.trans hrow₂)).1
      have hfits₁ : ∀ r rec, s₁.table.fh.records r = some rec → Fits s₁.table.tab rec := by
        intro r rec hr
        rw [hsame₂.records] at hr
        rw [hsame₂.tab]
        exact hfits r rec hr
      have hrest := updateRows_unchanged hbec.ok hfits₁ hrun (hsame.trans hsame₂.records.symm)
      intro r hr
      rcases List.mem_cons.mp hr with rfl | hr
      · exact hidle
      · have hback : Same s₁.table s.table :=
          ⟨hsame₂.tab.symm, hsame₂.per.symm, hsame₂.records.symm, fun index hi =>
            (hsame₂.entries index (by rw [← hsame₂.tab]; exact hi)).symm⟩
        exact (hrest r hr).congr hback
    · rw [forEach_cons_error hrow] at hrun
      cases hrun

end Rows

/-! ### Statements -/

/-- The statement fails before it has changed anything. -/
def FailsAtOnce (t : Table) : Stmt → Prop
  | .insert values => ∀ rec, makeRecord t.tab values = .ok rec →
    ∃ index rest, t.tab.indexes = index :: rest ∧ t.entry index (index.key rec) ≠ none
  | .update setClauses rids => ∃ A rid B, rids = A ++ rid :: B ∧ (∀ r ∈ A, Idle t setClauses r) ∧
    ∀ old new, t.fh.records rid = some old → setRecord t.tab setClauses old = .ok new →
      ∃ index ∈ t.tab.indexes, t.Rejects old new index
  | .delete rids => ∃ rid rest, rids = rid :: rest ∧ t.fh.records rid = none

/-- The records and the contents of the indexes are what they were. -/
def Unchanged (t t' : Table) : Prop :=
  t'.fh.records = t.fh.records ∧ ∀ index ∈ t.tab.indexes, t'.entry index = t.entry index

theorem Table.Same.unchanged {t t' : Table} (h : Same t t') : Unchanged t t' := ⟨h.records, h.entries⟩

section Failures

variable {s s' : Session} {e : RMDBError}

/-- **A rejected `INSERT`** has changed nothing if the first index has rejected it. -/
theorem insert_failed {values : List Value} {l : List ℤ} (h : s.table.Ok) (hfree : s.table.fh.Ok l)
    (hrun : s.insert values = (s', some e)) : Unchanged s.table s'.table ↔ FailsAtOnce s.table (.insert values) := by
  unfold Session.insert at hrun
  split at hrun
  · rename_i err hrec
    obtain ⟨rfl, -⟩ := Prod.mk.inj hrun
    refine ⟨?_, fun _ => (Same.refl _).unchanged⟩
    intro _ rec hrec'
    rw [hrec] at hrec'
    cases hrec'
  · rename_i rec hrec
    obtain ⟨g, N, rid', hins', -⟩ := RmFileHandle.insertRecord_spec hfree rec
    split at hrun
    · rename_i err hins
      rw [hins'] at hins
      cases hins
    · rename_i f' rid hins
      obtain ⟨hnone, -, hfile⟩ := RmFileHandle.insertRecord_cases h.pages h.first hins
      have hok : ({ s.table with fh := f' } : Table).IndexesOk := h.indexes
      have hstored : f'.records rid = some rec := by rw [hfile.records, Function.update_self]
      obtain ⟨f₂, hdel, hfile₂⟩ := RmFileHandle.deleteRecord_spec hfile.pages hstored
      rcases first_with_key { s.table with fh := f' } rec s.table.tab.indexes with hall | ⟨A, index, B, hsplit, hA, hold⟩
      · obtain ⟨t', hloop, -⟩ := insertEntries_spec hok rid (fun _ hi => hi) h.nodup hall
        rw [hloop] at hrun
        cases hrun
      · have hsub : ∀ i ∈ A ++ index :: B, i ∈ s.table.tab.indexes := by rw [← hsplit]; exact fun _ hi => hi
        obtain ⟨t₁, hrew, hloop⟩ := insertEntries_rejected hok hsub (by rw [← hsplit]; exact h.nodup) hA hold hdel
        rw [hsplit, hloop] at hrun
        obtain ⟨rfl, -⟩ := Prod.mk.inj hrun
        cases A with
        | nil =>
          refine ⟨?_, fun _ => ⟨?_, ?_⟩⟩
          · intro _ rec' hrec'
            obtain rfl := Except.ok.inj (hrec.symm.trans hrec')
            exact ⟨index, B, hsplit, hold⟩
          · simp only [hfile₂.records, hfile.records, Function.update_idem]
            rw [← hnone, Function.update_eq_self]
          · intro i _
            exact (hrew.entry i).trans (if_neg (by simp))
        | cons a A =>
          -- the entry in the first index stays
          constructor
          · intro hun
            have hnew := hA a List.mem_cons_self
            have hentry := congrFun (hun.2 a (hsub a (by simp))) (a.key rec)
            rw [show s.table.entry a (a.key rec) = none from hnew] at hentry
            have hstays : t₁.entry a (a.key rec) = some rid := by
              rw [hrew.entry a, if_pos List.mem_cons_self]
              simp only [Op.applyMap, true_and]
              rw [if_pos hnew]
            exact absurd (hstays.symm.trans hentry) (by simp)
          · intro hat
            obtain ⟨index', rest, hidx, hkey⟩ := hat rec hrec
            rw [hsplit] at hidx
            obtain ⟨rfl, -⟩ := List.cons.inj hidx
            exact absurd (hA a List.mem_cons_self) hkey

/-- **A failed `UPDATE`** has changed nothing if all rows before the one that failed were idle. -/
theorem update_failed {setClauses : List SetClause} {rids : List Rid} (h : s.table.Ok)
    (hfits : ∀ rid rec, s.table.fh.records rid = some rec → Fits s.table.tab rec)
    (hrun : forEach (Session.updateRow setClauses) rids s = (s', some e)) :
    Unchanged s.table s'.table ↔ FailsAtOnce s.table (.update setClauses rids) := by
  constructor
  · intro hun
    obtain ⟨A, rid, B, s₁, rfl, hA, hrow⟩ := forEach_error hrun
    have hok₁ : s₁.table.Ok := by
      refine forEach_ok_inv (P := fun u => u.table.Ok) hA h ?_
      intro r _ u u' hu hr
      obtain ⟨_, _, _, _, _, _, hbec⟩ := Session.updateRow_cases hu hr
      exact hbec.ok
    obtain ⟨htable, hfail⟩ := updateRow_error hok₁ hrow
    rw [htable] at hun
    have hidle := updateRows_unchanged h hfits hA hun.1
    obtain ⟨s₂, hA₂, -, hsame⟩ := updateRows_idle h hidle
    obtain rfl : s₁ = s₂ := (Prod.mk.inj (hA.symm.trans hA₂)).1
    refine ⟨A, rid, B, rfl, hidle, ?_⟩
    intro old new hold hset
    rw [← hsame.records] at hold
    rw [← hsame.tab] at hset
    obtain ⟨index, hi, hne, hkey⟩ := hfail old new hold hset
    rw [hsame.tab] at hi
    rw [hsame.entries index hi] at hkey
    exact ⟨index, hi, hne, hkey⟩
  · rintro ⟨A, rid, B, rfl, hidle, hfail⟩
    obtain ⟨s₁, hA, hok₁, hsame⟩ := updateRows_idle h hidle
    obtain ⟨s₂, e₂, hrow, htable⟩ := updateRow_fails hok₁ setClauses rid
      fun old new hold hset => by
        rw [hsame.records] at hold
        rw [hsame.tab] at hset
        obtain ⟨index, hi, hne, hkey⟩ := hfail old new hold hset
        exact ⟨index, by rw [hsame.tab]; exact hi, hne, by rw [hsame.entries index hi]; exact hkey⟩
    rw [forEach_append_ok hA, forEach_cons_error hrow] at hrun
    obtain ⟨rfl, -⟩ := Prod.mk.inj hrun
    rw [htable]
    exact hsame.unchanged

/-- A row that is deleted stays deleted. -/
theorem deleteRows_stays {rids : List Rid} {rid : Rid} (h : s.table.Ok) (hnone : s.table.fh.records rid = none)
    (hrun : forEach Session.deleteRow rids s = (s', none)) : s'.table.Ok ∧ s'.table.fh.records rid = none := by
  refine forEach_ok_inv (P := fun u => u.table.Ok ∧ u.table.fh.records rid = none) hrun ⟨h, hnone⟩ ?_
  rintro r - u u' ⟨hu, hr⟩ hrow
  obtain ⟨rec, -, -, hbec⟩ := Session.deleteRow_cases hu hrow
  refine ⟨hbec.ok, ?_⟩
  rw [hbec.records]
  by_cases hrr : r = rid
  · rw [hrr, Function.update_self]
  · rw [Function.update_of_ne (Ne.symm hrr), hr]

theorem deleteRow_error {rid : Rid} (h : s.table.Ok) (hrun : s.deleteRow rid = (s', some e)) :
    s' = s ∧ s.table.fh.records rid = none := by
  cases hrec : s.table.fh.records rid with
  | none =>
    unfold Session.deleteRow at hrun
    split at hrun
    · obtain ⟨rfl, -⟩ := Prod.mk.inj hrun
      exact ⟨rfl, rfl⟩
    · rename_i rec hget
      rw [RmFileHandle.records_of_getRecord hget] at hrec
      cases hrec
  | some rec =>
    obtain ⟨t', hrem, -⟩ := removeRow_spec h hrec
    simp only [Session.deleteRow, RmFileHandle.getRecord_eq hrec, hrem] at hrun
    cases hrun

/-- **A failed `DELETE`** has changed nothing if its first row has failed, which then has no record. -/
theorem delete_failed {rids : List Rid} (h : s.table.Ok) (hrun : forEach Session.deleteRow rids s = (s', some e)) :
    Unchanged s.table s'.table ↔ FailsAtOnce s.table (.delete rids) := by
  cases rids with
  | nil => cases hrun
  | cons rid rids =>
    rcases hrow : s.deleteRow rid with ⟨s₁, _ | e₁⟩
    · obtain ⟨rec, hrec, -, hbec⟩ := Session.deleteRow_cases h hrow
      rw [forEach_cons_ok hrow] at hrun
      have hgone : s₁.table.fh.records rid = none := by rw [hbec.records, Function.update_self]
      obtain ⟨A, r, B, s₂, rfl, hA, hfail⟩ := forEach_error hrun
      obtain ⟨hok₂, hgone₂⟩ := deleteRows_stays hbec.ok hgone hA
      constructor
      · intro hun
        rw [(deleteRow_error hok₂ hfail).1] at hun
        rw [hun.1, hrec] at hgone₂
        cases hgone₂
      · rintro ⟨rid', rest, heq, hnone⟩
        obtain ⟨rfl, -⟩ := List.cons.inj heq
        rw [hrec] at hnone
        cases hnone
    · obtain ⟨htable, hnone⟩ := deleteRow_error h hrow
      rw [forEach_cons_error hrow] at hrun
      obtain ⟨rfl, -⟩ := Prod.mk.inj hrun
      rw [htable]
      exact ⟨fun _ => ⟨rid, rids, rfl, hnone⟩, fun _ => (Same.refl _).unchanged⟩

end Failures

/-- **Statement atomicity.** A statement that ends with an error has left the records and the contents of all indexes
as they were exactly if it failed before it had changed anything. -/
theorem failed_unchanged_iff {s s' : Session} {stmt : Stmt} {e : RMDBError} {l : List ℤ} (h : s.table.Ok)
    (hfree : s.table.fh.Ok l) (hfits : ∀ rid rec, s.table.fh.records rid = some rec → Fits s.table.tab rec)
    (hrun : stmt.exec s = (s', some e)) : Unchanged s.table s'.table ↔ FailsAtOnce s.table stmt := by
  cases stmt with
  | insert values => exact insert_failed h hfree hrun
  | update setClauses rids => exact update_failed h hfits hrun
  | delete rids => exact delete_failed h hrun

/-! ### An `UPDATE` of two rows -/

/-- The table `k` with the rows `1` and `2`. -/
def twoRows : Session :=
  ((Stmt.insert [valueK 2]).exec ((Stmt.insert [valueK 1]).exec ⟨tableK, []⟩).1).1

theorem twoRows_ok : twoRows.table.Ok ∧ (∃ l, twoRows.table.fh.Ok l) ∧
    twoRows.table.fh.records =
      Function.update (Function.update (fun _ => none) ⟨1, 0⟩ (some (intBytes 4 1))) ⟨1, 1⟩ (some (intBytes 4 2)) := by
  obtain ⟨f, hf, hfree, hempty⟩ := RmFileHandle.createFile_ok (show (1 : ℤ) ≤ 4 by decide) (by decide)
  obtain rfl : f = tableK.fh := Except.ok.inj (hf.symm.trans rfl)
  have hrun₁ : Session.insert [valueK 1] ⟨tableK, []⟩ = ((Stmt.insert [valueK 1]).exec ⟨tableK, []⟩ |>.1, none) := rfl
  have hrun₂ : Session.insert [valueK 2] ((Stmt.insert [valueK 1]).exec ⟨tableK, []⟩).1 = (twoRows, none) := rfl
  obtain ⟨rec₁, rid₁, hins₁, hrec₁, -, -, -, -, hbec₁⟩ := Session.insert_cases tableK_spec.1 hrun₁
  obtain ⟨rec₂, rid₂, hins₂, hrec₂, -, -, -, -, hbec₂⟩ := Session.insert_cases hbec₁.ok hrun₂
  obtain ⟨l₁, hfree₁⟩ := hfree.insertRecord hins₁
  obtain rfl : rec₁ = intBytes 4 1 := Except.ok.inj (hrec₁.symm.trans rfl)
  obtain rfl : rec₂ = intBytes 4 2 := Except.ok.inj (hrec₂.symm.trans rfl)
  obtain rfl : rid₁ = ⟨1, 0⟩ := (Prod.mk.inj (Except.ok.inj (hins₁.symm.trans rfl))).2
  obtain rfl : rid₂ = ⟨1, 1⟩ := (Prod.mk.inj (Except.ok.inj (hins₂.symm.trans rfl))).2
  exact ⟨hbec₂.ok, hfree₁.insertRecord hins₂, by rw [hbec₂.records, hbec₁.records, hempty]⟩

theorem twoRows_spec : twoRows.table.Ok ∧ (∃ l, twoRows.table.fh.Ok l) ∧
    ∀ rid rec, twoRows.table.fh.records rid = some rec → Fits twoRows.table.tab rec := by
  obtain ⟨hok, hfree, hrecords⟩ := twoRows_ok
  refine ⟨hok, hfree, ?_⟩
  intro rid rec hrec c hc
  obtain rfl : c = colK := List.mem_singleton.mp hc
  have hlen : rec.length = 4 := by
    rw [hrecords, Function.update_apply, Function.update_apply] at hrec
    split_ifs at hrec
    · rw [← Option.some.inj hrec]
      rfl
    · rw [← Option.some.inj hrec]
      rfl
  rw [hlen]
  decide

/-- `UPDATE k SET a = 3` changes the first row and fails at the second, whose new key is taken by the first. -/
theorem failed_update_changed : ¬ ∀ (s s' : Session) (stmt : Stmt) (e : RMDBError), s.table.Ok → (∃ l, s.table.fh.Ok l) →
    (∀ rid rec, s.table.fh.records rid = some rec → Fits s.table.tab rec) → stmt.exec s = (s', some e) →
    Unchanged s.table s'.table := by
  intro hall
  obtain ⟨hok, hfree, hfits⟩ := twoRows_spec
  have hun := hall twoRows _ (.update (setK 3) [⟨1, 0⟩, ⟨1, 1⟩]) (.indexExists "k" ["a"]) hok hfree hfits (Prod.ext rfl (by decide +kernel))
  have hrow := congrFun hun.1 ⟨1, 0⟩
  exact absurd hrow (by decide +kernel)

/-- `INSERT INTO k VALUES (2)` is rejected by the only index. -/
theorem failed_unchanged_iff_insert : ∃ s' e, (Stmt.insert [valueK 2]).exec twoRows = (s', some e) ∧
    Unchanged twoRows.table s'.table := by
  obtain ⟨hok, ⟨l, hfree⟩, hfits⟩ := twoRows_spec
  have hrun : (Stmt.insert [valueK 2]).exec twoRows =
      (((Stmt.insert [valueK 2]).exec twoRows).1, some (.indexExists "k" ["a"])) := Prod.ext rfl (by decide +kernel)
  refine ⟨_, _, hrun, (failed_unchanged_iff hok hfree hfits hrun).mpr ?_⟩
  intro rec hrec
  obtain rfl : rec = intBytes 4 2 := Except.ok.inj (hrec.symm.trans rfl)
  exact ⟨⟨"k", [colK]⟩, [], rfl, by decide +kernel⟩

end Rmdb.Execution
