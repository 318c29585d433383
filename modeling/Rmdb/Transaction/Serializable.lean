import Rmdb.Execution.OrderFree
import Rmdb.Transaction.Abort
import Rmdb.Transaction.Schedule

/-!
# Serializability

Whatever the interleaving, the transactions that have committed are as good as executed one after the other
in the order of their commits (`serializable`): every `SELECT` of theirs has returned what it returns then for some
order of the rows below it, and at the end every table has the records that it has then. Where the records are
stored decides that order. A `SELECT` whose sums are exact and which has no NaN and no `-0.0` to compare returns the same
rows whatever it is (`DMLPlan.orderFree_of_exact`); a sum of a `FLOAT` column does not (`serializable_fails`).

The invariant compares the server with the bags `C` that the committed transactions leave one after the other
(`InvAt`). A table is at `C`, up to the writes of the transaction that holds it exclusively
(`Back`). A transaction that is alive sees, on the tables that it has locked, what it would see if it began now:
its statements take `C` to some bags `B`, which are those of its tables (`Pending`), and the statement that is being executed has so far
done what it does alone on them. A step of another transaction touches none of these tables. So a
commit, which takes `C` to `B`, puts the transaction behind those that have committed before it.
-/

namespace Rmdb.Transaction

open Lib Record Execution
open Function (update)

/-! ### Tables and the committed records -/

/-- With some writes undone the table has the records of the bag, and its indexes have suited it all the way. -/
structure Back (bag : Multiset Bytes) (v : Table) (ws : List WriteRecord) : Prop where
  stores : ∃ R, GoesBack v.fh.numRecordsPerPage ws.reverse v.fh.records R ∧ Stores R bag
  keys : ∀ index ∈ v.tab.indexes, ∀ P ∈ pasts ws.reverse v.fh.records, KeysDiffer index P

section Back

variable {bag : Multiset Bytes} {k : String} {v v' : Table} {ws ws' : List WriteRecord} {w : WriteRecord}

theorem Back.nil (h : Stores v.fh.records bag) : Back bag v [] := ⟨⟨_, rfl, h⟩, fun _ _ _ hP => nomatch hP⟩

/-- Where nothing is to be undone the table has the records of the bag. -/
theorem Back.stores_nil (h : Back bag v []) : Stores v.fh.records bag := by
  obtain ⟨R, rfl, hR⟩ := h.stores
  exact hR

/-- Further writes. -/
theorem Back.append {new : List WriteRecord} (h : Back bag v ws) (htab : v'.tab = v.tab)
    (hper : v'.fh.numRecordsPerPage = v.fh.numRecordsPerPage)
    (hback : GoesBack v.fh.numRecordsPerPage new.reverse v'.fh.records v.fh.records)
    (hkeys : ∀ index ∈ v.tab.indexes, ∀ P ∈ pasts new.reverse v'.fh.records, KeysDiffer index P) : Back bag v' (ws ++ new) := by
  obtain ⟨R, hR, hstores⟩ := h.stores
  refine ⟨⟨R, ?_, hstores⟩, ?_⟩
  · rw [List.reverse_append, hper]
    exact hback.append hR
  · intro index hi P hP
    rw [htab] at hi
    rw [List.reverse_append, hback.pasts_append] at hP
    rcases List.mem_append.mp hP with hP | hP
    · exact hkeys index hi P hP
    · exact h.keys index hi P hP

/-- **The latest write is undone.** -/
theorem Back.undo (h : Back bag v (ws ++ [w])) (hok : v.Ok) (ha : v.Agrees) (hrun : undo w v = (v', none)) :
    v'.Ok ∧ v'.Agrees ∧ v'.tab = v.tab ∧ Back bag v' ws := by
  have hkeys := h.keys
  obtain ⟨R, hR, hstores⟩ := h.stores
  rw [List.reverse_append, List.reverse_singleton, List.singleton_append] at hR hkeys
  obtain ⟨v₁, hrun₁, h₁⟩ := undo_spec hok hR.1
  obtain rfl : v' = v₁ := (Prod.mk.inj (hrun.symm.trans hrun₁)).1
  refine ⟨h₁.ok, h₁.agrees ha fun index hi => hkeys index hi _ List.mem_cons_self, h₁.tab, ⟨R, ?_, hstores⟩, ?_⟩
  · rw [h₁.per, h₁.records]
    exact hR.2
  · intro index hi P hP
    rw [h₁.tab] at hi
    rw [h₁.records] at hP
    exact hkeys index hi P (List.mem_cons_of_mem _ hP)

/-- The undoing of the latest write finds what it needs. -/
theorem Back.can_undo (h : Back bag v (ws ++ [w])) (hok : v.Ok) : ∃ v', Transaction.undo w v = (v', none) := by
  obtain ⟨R, hR, -⟩ := h.stores
  rw [List.reverse_append, List.reverse_singleton, List.singleton_append] at hR
  obtain ⟨v', hrun, -⟩ := undo_spec hok hR.1
  exact ⟨v', hrun⟩

end Back

theorem writesTo_one {k : String} {w : WriteRecord} (h : w.tabName = k) : writesTo k [w] = [w] :=
  writesTo_eq_self fun _ hw => List.mem_singleton.mp hw ▸ h

theorem writesTo_other {k : String} {w : WriteRecord} (h : w.tabName ≠ k) : writesTo k [w] = [] :=
  writesTo_eq_nil fun _ hw => List.mem_singleton.mp hw ▸ h

namespace Dbms

/-- A table is in order. With the writes of the transaction that has changed it undone it has the records of the bag. -/
structure Kept (db : DbMeta) (bag : Multiset Bytes) (heldX : TxnId → Set String) (writeSet : TxnId → List WriteRecord)
    (k : String) (v : Table) : Prop where
  ok : v.Ok
  agrees : v.Agrees
  named : v.tab.name = k
  tab : db.tabs k = some v.tab
  back : ∀ t, (∀ u, k ∈ heldX u → u = t) → Back bag v (writesTo k (writeSet t))

section Tables

variable {db : DbMeta} {D : DoubleOps} {std : StdSort} {C : Bags} {s s' : Dbms} {t u : TxnId} {k : String} {v v' : Table}

/-- At most one transaction holds a table exclusively. -/
theorem Sane.exists_alone (hs : Sane s) (k : String) : ∃ t, ∀ u, k ∈ s.heldX u → u = t := by
  by_cases hx : ∃ t, k ∈ s.heldX t
  · obtain ⟨t, hx⟩ := hx
    exact ⟨t, fun u hu => hs.alone hx (heldX_subset s u hu)⟩
  · exact ⟨0, fun u hu => absurd ⟨u, hu⟩ hx⟩

/-- A transaction has changed only what it holds exclusively. -/
theorem Sane.writesTo_nil (hs : Sane s) (hk : k ∉ s.heldX t) : writesTo k (s.writeSet t) = [] :=
  writesTo_eq_nil fun w hw heq => hk (heq ▸ hs.holds t w hw)

/-- A table that a transaction holds, and has not changed, has the committed records. -/
theorem Kept.stands (h : Kept db (C k) s.heldX s.writeSet k v) (hs : Sane s) (hk : k ∈ s.held t)
    (hw : writesTo k (s.writeSet t) = []) : Stands db k (C k) v :=
  ⟨h.ok, h.agrees, h.named, h.tab, (hw ▸ h.back t fun _ hx => (hs.alone hx hk).symm).stores_nil⟩

theorem Kept.mono {bag : Multiset Bytes} {heldX heldX' : TxnId → Set String} {writeSet : TxnId → List WriteRecord}
    (h : Kept db bag heldX writeSet k v) (hX : ∀ u, heldX u ⊆ heldX' u) : Kept db bag heldX' writeSet k v :=
  { h with back := fun t halone => h.back t fun u hu => halone u (hX u hu) }

/-- A change of a row: a table that is held exclusively has been changed further. -/
theorem Kept.write {op : RowOp} {writes : List WriteRecord} (h : Kept db (C k) s.heldX s.writeSet k v)
    (hx : k ∈ s.heldX t) (hop : op.apply v (s.writeSet t) = some (v', writes)) :
    Kept db (C k) s.heldX (update s.writeSet t writes) k v' ∧ ∀ k', k' ≠ k → writesTo k' writes = writesTo k' (s.writeSet t) := by
  have hadv := apply_advance h.ok hop
  obtain ⟨new, hnew, hnames, hback, hagrees⟩ := hadv.writes
  obtain ⟨ha, hkeys⟩ := hagrees trivial h.agrees
  simp only at hnew hback hkeys
  have hname : ∀ w ∈ new, w.tabName = k := fun w hw => (hnames w hw).trans h.named
  have htab : v'.tab = v.tab := hadv.tab
  refine ⟨⟨hadv.ok, ha, htab ▸ h.named, htab ▸ h.tab, ?_⟩, ?_⟩
  · intro u halone
    obtain rfl := halone t hx
    rw [Function.update_self, hnew, writesTo_append, writesTo_eq_self hname]
    exact (h.back t halone).append htab hadv.per hback hkeys
  · intro k' hk'
    rw [hnew, writesTo_append, writesTo_eq_nil fun w hw heq => hk' (heq.symm.trans (hname w hw)), List.append_nil]

/-- A write of a transaction is undone. -/
theorem Kept.undo {ws : List WriteRecord} {w : WriteRecord} (h : Kept db (C k) s.heldX s.writeSet k v) (hx : k ∈ s.heldX t)
    (hs : Sane s) (hw : s.writeSet t = ws ++ [w]) (hk : w.tabName = k) (hrun : Transaction.undo w v = (v', none)) :
    Kept db (C k) s.heldX (update s.writeSet t ws) k v' := by
  have hwrites : writesTo k (s.writeSet t) = writesTo k ws ++ [w] := by
    rw [hw, writesTo_append, writesTo_one hk]
  have halone : ∀ u, k ∈ s.heldX u → u = t := fun u hu => hs.alone hx (heldX_subset s u hu)
  obtain ⟨hok, ha, htab, hback⟩ := (hwrites ▸ h.back t halone).undo h.ok h.agrees hrun
  refine ⟨hok, ha, htab ▸ h.named, htab ▸ h.tab, ?_⟩
  intro u hu
  obtain rfl := hu t hx
  rwa [Function.update_self]

/-- Writes to other tables. -/
theorem Kept.others {bag : Multiset Bytes} {heldX : TxnId → Set String} {writeSet : TxnId → List WriteRecord} {ws : List WriteRecord}
    (h : Kept db bag heldX writeSet k v) (hws : writesTo k ws = writesTo k (writeSet t)) :
    Kept db bag heldX (update writeSet t ws) k v := by
  refine { h with back := ?_ }
  intro u halone
  by_cases hu : u = t
  · subst hu
    rw [Function.update_self, hws]
    exact h.back u halone
  · rw [Function.update_of_ne hu]
    exact h.back u halone

/-- **A step** keeps the tables, unless it is a commit. -/
theorem kept_step {a : Action} (hs : Sane s) (hkept : ∀ k v, s.tables k = some v → Kept db (C k) s.heldX s.writeSet k v)
    (h : Step db D std s (t, a) s') (ha : a ≠ .commit) (k : String) (v : Table) (hv : s'.tables k = some v) :
    Kept db (C k) s'.heldX s'.writeSet k v := by
  cases h with
  | @acquire _ stmt k' exclusive rest v₀ queue hphase hv₀ hq =>
    refine (hkept k v hv).mono ?_
    intro u
    by_cases hu : u = t
    · subst hu
      exact (held_acquire hq (hs.queues k')).2.1
    · exact (held_acquire_of_ne hq hu).2.ge
  | @write _ stmt k' op rest v₀ v' writes hphase hv₀ hop =>
    obtain ⟨hkept', hother⟩ := (hkept k' v₀ hv₀).write (hs.guarded t stmt _ hphase).1 hop
    rcases update_cases hv with ⟨rfl, rfl⟩ | ⟨hne, hv⟩
    · exact hkept'
    · exact (hkept k v hv).others (hother k hne)
  | @undo _ ws w v₀ v' hphase hw hv₀ hundo =>
    have hx : w.tabName ∈ s.heldX t := hs.holds t w (by rw [hw]; simp)
    rcases update_cases hv with ⟨rfl, rfl⟩ | ⟨hne, hv⟩
    · exact (hkept _ v₀ hv₀).undo hx hs hw rfl hundo
    · refine (hkept k v hv).others ?_
      rw [hw, writesTo_append, writesTo_other (Ne.symm hne), List.append_nil]
  | unlock k' hleave =>
    have hk := hkept k v hv
    refine { hk with back := ?_ }
    intro u halone
    by_cases hold : ∀ u', k ∈ s.heldX u' → u' = u
    · exact hk.back u hold
    · -- the exclusive lock of this table is the one that is given back
      obtain ⟨u', hnot⟩ := not_forall.mp hold
      obtain ⟨hx, hne⟩ := Classical.not_imp.mp hnot
      have hu' : u' = t := by
        by_contra hu'
        exact hne (halone u' ((held_unlock_of_ne (s := s) (k := k') hu').2.ge hx))
      subst hu'
      have hback := hk.back u' fun u'' hx'' => hs.alone hx (heldX_subset s u'' hx'')
      rw [Leaving.writeSet (s := s) hs hleave] at hback
      have hnil : writesTo k (s.writeSet u) = [] := hs.writesTo_nil fun hxu => hne (hs.alone hxu (heldX_subset s u' hx))
      show Back (C k) v (writesTo k (s.writeSet u))
      rw [hnil]
      exact hback
  | commit => exact absurd rfl ha
  | _ => exact hkept k v hv

end Tables

/-! ### Transactions that are alive -/

section Alive

variable (db : DbMeta) (D : DoubleOps) (std : StdSort)

/-- What a transaction that is alive would make of the committed records. -/
structure Pending (C B : Bags) (held heldX : Set String) (work : List (DMLPlan × List Bytes)) : Prop where
  /-- Its statements take them to what it sees. -/
  means : MeansAll db D std C work B
  /-- It has locked the tables of its statements. -/
  tables : ∀ e ∈ work, ∀ k ∈ e.1.tables, k ∈ held
  /-- It has changed only what it has locked exclusively. -/
  others : ∀ k, k ∉ heldX → B k = C k

/-- A statement has done so far what it does alone, on tables with the records `B`. -/
def Executing (B : Bags) (held heldX : Set String) (tables : Db) (ws : List WriteRecord) (stmt : DMLPlan) (p : StmtProg) : Prop :=
  stmt.NoLimit ∧ ∃ objects w objects', AllStand db held B objects ∧
    Solo RowOp.apply held heldX ⟨stmt.prog db D std, objects, w⟩ ⟨p, objects', ws⟩ ∧ ∀ k ∈ held, objects' k = tables k

/-- What holds of a transaction that has not ended, with the committed records `C`. -/
def Live (C : Bags) (s : Dbms) (t : TxnId) : Prop :=
  match s.phase t with
  | .idle => s.finished t = []
  | .running => ∃ B, Pending db D std C B (s.held t) (s.heldX t) (s.finished t) ∧ AllStand db (s.held t) B s.tables
  | .executing stmt p => ∃ B, Pending db D std C B (s.held t) (s.heldX t) (s.finished t) ∧
    Executing db D std B (s.held t) (s.heldX t) s.tables (s.writeSet t) stmt p
  | _ => True

end Alive

section Alive

variable {db : DbMeta} {D : DoubleOps} {std : StdSort} {B B' C C' : Bags} {held heldX heldX' : Set String}
  {tables tables' objects objects' : Db} {work : List (DMLPlan × List Bytes)} {ws ws' : List WriteRecord} {stmt : DMLPlan} {k : String}

theorem Pending.mono (h : Pending db D std C B held heldX work) (hX : heldX ⊆ heldX') :
    Pending db D std C B (insert k held) heldX' work :=
  ⟨h.means, fun e he k' hk' => Set.mem_insert_of_mem _ (h.tables e he k' hk'), fun k' hk' => h.others k' fun hx => hk' (hX hx)⟩

open Classical in
/-- **Others commit.** What a transaction sees on its tables is the same if these are the same. -/
theorem Pending.frame (h : Pending db D std C B held heldX work) (hC : ∀ k ∈ held, C' k = C k) :
    ∃ B', Pending db D std C' B' held heldX work ∧ ∀ k ∈ held, B' k = B k := by
  refine ⟨held.piecewise B C', ⟨h.means.frame h.tables hC, h.tables, ?_⟩, fun k hk => Set.piecewise_eq_of_mem _ _ _ hk⟩
  intro k hk
  by_cases hheld : k ∈ held
  · rw [Set.piecewise_eq_of_mem _ _ _ hheld, h.others k hk, hC k hheld]
  · exact Set.piecewise_eq_of_notMem _ _ _ hheld

/-- A lock is granted. What the statement has done so far it does alone with the table that is locked now, too. -/
theorem Executing.acquire {exclusive : Bool} {rest : StmtProg}
    (h : Executing db D std B held heldX tables ws stmt (.acquire k exclusive rest)) (hX : heldX ⊆ heldX')
    (hx : exclusive = true → k ∈ heldX') (hk : k ∉ held → ∃ v, tables k = some v ∧ Stands db k (B k) v) :
    Executing db D std B (insert k held) heldX' tables ws stmt rest := by
  obtain ⟨hlimit, objects, w, objects', hstand, hsolo, hsame⟩ := h
  by_cases hold : k ∈ held
  · rw [Set.insert_eq_of_mem hold]
    exact ⟨hlimit, objects, w, objects', hstand, (hsolo.mono subset_rfl hX).tail (.acquire hold hx), hsame⟩
  · obtain ⟨v, hv, hst⟩ := hk hold
    have hsolo' := (hsolo.frame hold (tables k)).mono (Set.subset_insert k held) hX
    refine ⟨hlimit, _, w, _, ?_, hsolo'.tail (.acquire (Set.mem_insert ..) hx), ?_⟩
    · intro k' hk'
      by_cases hkk : k' = k
      · subst hkk
        exact ⟨v, by rw [Function.update_self, hv], hst⟩
      · rw [Function.update_of_ne hkk]
        exact hstand k' (Set.mem_of_mem_insert_of_ne hk' hkk)
    · intro k' hk'
      by_cases hkk : k' = k
      · rw [hkk, Function.update_self]
      · rw [Function.update_of_ne hkk]
        exact hsame k' (Set.mem_of_mem_insert_of_ne hk' hkk)

theorem Executing.look {rest : Table → StmtProg} {v : Table}
    (h : Executing db D std B held heldX tables ws stmt (.look k rest)) (hk : k ∈ held) (hv : tables k = some v) :
    Executing db D std B held heldX tables ws stmt (rest v) := by
  obtain ⟨hlimit, objects, w, objects', hstand, hsolo, hsame⟩ := h
  exact ⟨hlimit, objects, w, objects', hstand, hsolo.tail (.look hk ((hsame k hk).trans hv)), hsame⟩

theorem Executing.write {op : RowOp} {rest : StmtProg} {v v' : Table}
    (h : Executing db D std B held heldX tables ws stmt (.write k op rest)) (hk : k ∈ held) (hv : tables k = some v)
    (hop : op.apply v ws = some (v', ws')) : Executing db D std B held heldX (update tables k (some v')) ws' stmt rest := by
  obtain ⟨hlimit, objects, w, objects', hstand, hsolo, hsame⟩ := h
  refine ⟨hlimit, objects, w, _, hstand, hsolo.tail (.write hk ((hsame k hk).trans hv) hop), ?_⟩
  intro k' hk'
  by_cases hkk : k' = k
  · rw [hkk, Function.update_self, Function.update_self]
  · rw [Function.update_of_ne hkk, Function.update_of_ne hkk]
    exact hsame k' hk'

/-- **A statement ends**, and has done what it means. -/
theorem Executing.finish {result : List Bytes} (hpending : Pending db D std C B held heldX work)
    (h : Executing db D std B held heldX tables ws stmt (.ret result)) :
    ∃ B', Pending db D std C B' held heldX (work ++ [(stmt, result)]) ∧ AllStand db held B' tables := by
  obtain ⟨hlimit, objects, w, objects', hstand, hsolo, hsame⟩ := h
  obtain ⟨B', hmeans, hstand', htables, hothers⟩ := DMLPlan.means hlimit hstand hsolo
  refine ⟨B', ⟨hpending.means.snoc hmeans, ?_, fun k hk => (hothers k hk).trans (hpending.others k hk)⟩,
    hstand'.congr (fun _ _ => rfl) fun k hk => (hsame k hk).symm⟩
  intro e he k hk
  rcases List.mem_append.mp he with he | he
  · exact hpending.tables e he k hk
  · obtain rfl := List.mem_singleton.mp he
    exact htables k hk

variable {s s' : Dbms} {t u : TxnId}

/-- A transaction that a step leaves alone, with committed records that are the same on its tables. -/
theorem Live.unaffected (h : Live db D std C s u) (hs : Unaffected s s' u) (hC : ∀ k ∈ s.held u, C' k = C k) :
    Live db D std C' s' u := by
  rw [Live] at h ⊢
  rw [hs.phase, hs.finished, hs.held, hs.heldX, hs.writeSet]
  cases hphase : s.phase u with
  | running =>
    simp only [hphase] at h ⊢
    obtain ⟨B, hpending, hstand⟩ := h
    obtain ⟨B', hpending', hB⟩ := hpending.frame hC
    exact ⟨B', hpending', hstand.congr hB hs.tables⟩
  | executing stmt p =>
    simp only [hphase] at h ⊢
    obtain ⟨B, hpending, hlimit, objects, w, objects', hstand, hsolo, hsame⟩ := h
    obtain ⟨B', hpending', hB⟩ := hpending.frame hC
    exact ⟨B', hpending', hlimit, objects, w, objects', hstand.congr hB fun _ _ => rfl, hsolo,
      fun k hk => (hsame k hk).trans (hs.tables k hk).symm⟩
  | idle =>
    simp only [hphase] at h ⊢
    exact h
  | _ => trivial

/-- A table that is locked, and that the transaction has not changed, stands with the committed records. -/
theorem stands_of_held (hs : Sane s) (hkept : ∀ k v, s.tables k = some v → Kept db (C k) s.heldX s.writeSet k v)
    (hk : k ∈ s.held t) (hw : writesTo k (s.writeSet t) = []) : ∃ v, s.tables k = some v ∧ Stands db k (C k) v := by
  obtain ⟨v, hv⟩ := Option.isSome_iff_exists.mp (hs.there t k hk)
  exact ⟨v, hv, (hkept k v hv).stands hs hk hw⟩

/-- **A step** of the transaction itself, unless it is a commit. The tables are those after the step. -/
theorem live_step {a : Action} (hs : Sane s) (hs' : Sane s')
    (hkept' : ∀ k v, s'.tables k = some v → Kept db (C k) s'.heldX s'.writeSet k v) (hlive : Live db D std C s t)
    (h : Step db D std s (t, a) s') : Live db D std C s' t := by
  rw [Live] at hlive
  cases h with
  | beginTxn hphase =>
    simp only [hphase] at hlive
    simp only [Live, Function.update_self]
    refine ⟨C, ⟨?_, ?_, fun _ _ => rfl⟩, ?_⟩
    · rw [show s.finished t = [] from hlive]
      rfl
    · intro e he
      rw [show s.finished t = [] from hlive] at he
      cases he
    · intro k hk
      have hst := stands_of_held hs' hkept' hk (t := t) (by rw [show s.writeSet t = [] from hs.quiet t (.inl hphase)]; rfl)
      exact hst
  | start hphase hlimit =>
    simp only [hphase] at hlive
    simp only [Live, Function.update_self]
    obtain ⟨B, hpending, hstand⟩ := hlive
    exact ⟨B, hpending, hlimit, s.tables, s.writeSet t, s.tables, hstand, .refl, fun _ _ => rfl⟩
  | @acquire _ stmt k exclusive rest v queue hphase hv hq =>
    simp only [hphase] at hlive
    obtain ⟨B, hpending, hexec⟩ := hlive
    obtain ⟨hheld, hmono, hx⟩ := held_acquire hq (hs.queues k) (f := update s.phase t (.executing stmt rest))
    simp only [Live, Function.update_self]
    rw [hheld]
    refine ⟨B, hpending.mono hmono, hexec.acquire hmono (fun he => hx (by simp [lockMode, he])) ?_⟩
    intro hnot
    -- the table has not been changed by this transaction, nor by another one that is alive
    have hnotX : k ∉ s.heldX t := fun hxk => hnot (heldX_subset s t hxk)
    rw [hpending.others k hnotX]
    have hst := stands_of_held hs' hkept' (hheld.ge (Set.mem_insert ..)) (hs.writesTo_nil hnotX)
    exact hst
  | look hphase hv =>
    simp only [hphase] at hlive
    obtain ⟨B, hpending, hexec⟩ := hlive
    simp only [Live, Function.update_self]
    exact ⟨B, hpending, hexec.look (hs.guarded t _ _ hphase).1 hv⟩
  | write hphase hv hop =>
    simp only [hphase] at hlive
    obtain ⟨B, hpending, hexec⟩ := hlive
    simp only [Live, Function.update_self]
    exact ⟨B, hpending, hexec.write (heldX_subset s t (hs.guarded t _ _ hphase).1) hv hop⟩
  | finish hphase =>
    simp only [hphase] at hlive
    obtain ⟨B, hpending, hexec⟩ := hlive
    simp only [Live, Function.update_self]
    exact hexec.finish hpending
  | undo hphase =>
    simp only [Live, hphase]
  | unlock k hleave =>
    rcases hleave with hphase | ⟨hphase, -⟩
    · simp only [Live, hphase]
    · simp only [Live, hphase]
  | _ => simp only [Live, Function.update_self]

end Alive

/-! ### Runs -/

/-- What the committed transactions have done, in the order of their commits. -/
def work (s : Dbms) : List (DMLPlan × List Bytes) := s.committed.flatMap (·.2)

/-- Nobody is doing anything. -/
def Ended (s : Dbms) : Prop := ∀ t, s.phase t = .idle ∨ s.phase t = .done

/-- **The invariant**: the committed transactions, one after the other, take the records of the start to `C`. -/
structure InvAt (db : DbMeta) (D : DoubleOps) (std : StdSort) (B₀ C : Bags) (s : Dbms) : Prop where
  sane : Sane s
  serial : MeansAll db D std B₀ s.work C
  absent : ∀ k, s.tables k = none → C k = 0
  kept : ∀ k v, s.tables k = some v → Kept db (C k) s.heldX s.writeSet k v
  live : ∀ t, Live db D std C s t

section Runs

variable {db : DbMeta} {D : DoubleOps} {std : StdSort} {B₀ C : Bags} {s s' : Dbms} {t : TxnId} {k : String} {v : Table}

/-- Only a commit is written down. -/
theorem committed_step {a : Action} (h : Step db D std s (t, a) s') (ha : a ≠ .commit) : s'.committed = s.committed := by
  cases h with
  | commit => exact absurd rfl ha
  | _ => rfl

/-- Tables stay. -/
theorem tables_step {a : Action} (h : Step db D std s (t, a) s') (hk : s'.tables k = none) : s.tables k = none := by
  cases h with
  | write | undo =>
    simp only [Function.update_apply] at hk
    split_ifs at hk
    exact hk
  | _ => exact hk

/-- **A commit** takes the committed records to what the transaction has seen. -/
theorem InvAt.commit (h : InvAt db D std B₀ C s) (hs' : Sane s') (hstep : Step db D std s (t, .commit) s') :
    ∃ C', InvAt db D std B₀ C' s' := by
  have hothers : ∀ u, u ≠ t → Unaffected s s' u := fun u hu => hstep.unaffected h.sane hu
  cases hstep with
  | commit hphase =>
    have hlive := h.live t
    simp only [Live, hphase] at hlive
    obtain ⟨B, hpending, hstand⟩ := hlive
    have hstands : ∀ k v, k ∈ s.heldX t → s.tables k = some v → Stores v.fh.records (B k) := fun k v hx hv => by
      obtain ⟨v', hv', hst⟩ := hstand k (heldX_subset s t hx)
      obtain rfl := Option.some.inj (hv.symm.trans hv')
      exact hst.stores
    refine ⟨B, hs', ?_, ?_, ?_, ?_⟩
    · simp only [work, List.flatMap_append, List.flatMap_singleton]
      exact h.serial.append hpending.means
    · intro k hk
      have hnot : k ∉ s.heldX t := fun hx => by
        have hsome := h.sane.there t k (heldX_subset s t hx)
        rw [show s.tables k = none from hk] at hsome
        cases hsome
      rw [hpending.others k hnot]
      exact h.absent k hk
    · intro k v hv
      have hk := h.kept k v hv
      by_cases hx : k ∈ s.heldX t
      · refine ⟨hk.ok, hk.agrees, hk.named, hk.tab, ?_⟩
        intro u halone
        obtain rfl := halone t hx
        simp only [Function.update_self]
        exact .nil (hstands k v hx hv)
      · rw [hpending.others k hx]
        exact hk.others (h.sane.writesTo_nil hx).symm
    · intro u
      by_cases hu : u = t
      · subst hu
        simp only [Live, Function.update_self]
      · refine (h.live u).unaffected (hothers u hu) ?_
        intro k hk
        exact hpending.others k fun hx => hu (h.sane.alone hx hk)

/-- **A step** keeps the invariant. -/
theorem InvAt.step {a : Action} (h : InvAt db D std B₀ C s) (hstep : Step db D std s (t, a) s') :
    ∃ C', InvAt db D std B₀ C' s' := by
  have hs' : Sane s' := h.sane.step (fun k v hv => ⟨(h.kept k v hv).ok, (h.kept k v hv).named⟩) hstep
  by_cases ha : a = .commit
  · subst ha
    exact h.commit hs' hstep
  · have hkept' := kept_step h.sane h.kept hstep ha
    refine ⟨C, hs', ?_, fun k hk => h.absent k (tables_step hstep hk), hkept', ?_⟩
    · rw [work, committed_step hstep ha]
      exact h.serial
    · intro u
      by_cases hu : u = t
      · subst hu
        exact live_step h.sane hs' hkept' (h.live u) hstep
      · exact (h.live u).unaffected (hstep.unaffected h.sane hu) fun _ _ => rfl

theorem bags_eq (hv : s.tables k = some v) : s.bags k = (v.fh.rids.filterMap v.fh.records : List Bytes) := by
  simp only [bags, hv]

theorem stores_bags (hv : s.tables k = some v) : Stores v.fh.records (s.bags k) :=
  ⟨_, v.fh.nodup_rids, fun _ => RmFileHandle.mem_rids, bags_eq hv⟩

/-- At the start nothing has been committed. -/
theorem Init.invAt (h : Init db s) : InvAt db D std s.bags s.bags s where
  sane := h.sane
  serial := by
    rw [work, h.committed]
    rfl
  absent k hk := by simp only [bags, hk]
  kept k v hv := by
    obtain ⟨hok, ha, hname, htab⟩ := h.tables k v hv
    refine ⟨hok, ha, hname, htab, ?_⟩
    intro t _
    rw [h.writeSet]
    exact .nil (stores_bags hv)
  live t := by
    simp only [Live, h.phase]
    exact h.finished t

theorem InvAt.trace {tr : List (Dbms × TxnId × Action)} (h : InvAt db D std B₀ C s) (hrun : Trace (Step db D std) s tr s') :
    ∃ C', InvAt db D std B₀ C' s' :=
  hrun.inv' (I := fun s => ∃ C, InvAt db D std B₀ C s) ⟨C, h⟩ fun ⟨_, hs⟩ hstep => hs.step hstep

/-- At the end the tables have the committed records. -/
theorem InvAt.bags_of_ended (h : InvAt db D std B₀ C s) (hend : s.Ended) : C = s.bags := by
  funext k
  cases hv : s.tables k with
  | none => simp only [h.absent k hv, bags, hv]
  | some v =>
    obtain ⟨t, halone⟩ := h.sane.exists_alone k
    have hnil : s.writeSet t = [] := h.sane.quiet t ((hend t).imp_right .inr)
    exact (hnil ▸ (h.kept k v hv).back t halone).stores_nil.unique (stores_bags hv)

/-- `abort` does not stop: the latest write of a transaction can always be undone. -/
theorem undo_progress {tr : List (Dbms × TxnId × Action)} (hinit : Init db s) (hrun : Trace (Step db D std) s tr s')
    (hphase : s'.phase t = .aborting) {ws : List WriteRecord} {w : WriteRecord} (hw : s'.writeSet t = ws ++ [w]) :
    ∃ s'', Step db D std s' (t, .undo w) s'' := by
  obtain ⟨C, h⟩ := hinit.invAt.trace hrun
  have hx : w.tabName ∈ s'.heldX t := h.sane.holds t w (by rw [hw]; simp)
  obtain ⟨v, hv⟩ := Option.isSome_iff_exists.mp (h.sane.there t _ (heldX_subset s' t hx))
  have hback := (h.kept _ v hv).back t fun u hu => h.sane.alone hx (heldX_subset s' u hu)
  rw [hw, writesTo_append, writesTo_one rfl] at hback
  obtain ⟨v', hundo⟩ := hback.can_undo (h.kept _ v hv).ok
  exact ⟨_, .undo hphase hw hv hundo⟩

/-- **Serializability.** When all transactions have ended, the committed ones have returned the rows, and have left in
every table the records, that they return and leave if they are executed one after the other in the order of
their commits. Any other run in which the same statements are committed in this order, such as one in which the
transactions do not overlap, ends with the same records. A statement returns the same rows in it, unless it computes with
`FLOAT` or its sums are not exact on the records that the statements before it leave. -/
theorem serializable {tr : List (Dbms × TxnId × Action)} (hinit : Init db s) (hrun : Trace (Step db D std) s tr s')
    (hend : s'.Ended) :
    MeansAll db D std s.bags s'.work s'.bags ∧
      ∀ {r r' : Dbms} {tr' : List (Dbms × TxnId × Action)}, Init db r → r.bags = s.bags →
        Trace (Step db D std) r tr' r' → r'.Ended → r'.work.map (·.1) = s'.work.map (·.1) →
        r'.bags = s'.bags ∧ ∀ {isInt : D.carrier → ℤ → Prop}, D.Ieee isInt → db.Ok → BagsFit db s.bags →
          ∀ (i : ℕ) {B : Bags} {stmt : DMLPlan} {result result' : List Bytes}, s'.work[i]? = some (stmt, result) →
            r'.work[i]? = some (stmt, result') → MeansAll db D std s.bags (s'.work.take i) B → stmt.Exact db B →
            result.Perm result' := by
  have hserial : ∀ {r r' : Dbms} {tr' : List (Dbms × TxnId × Action)}, Init db r → Trace (Step db D std) r tr' r' → r'.Ended →
      MeansAll db D std r.bags r'.work r'.bags := fun hinit hrun hend => by
    obtain ⟨C, h⟩ := hinit.invAt.trace hrun
    rw [← h.bags_of_ended hend]
    exact h.serial
  refine ⟨hserial hinit hrun hend, fun hinit' hbags hrun' hend' hsame => ?_⟩
  obtain ⟨hbags', hrows⟩ := (hserial hinit hrun hend).unique (hbags ▸ hserial hinit' hrun' hend') hsame
  refine ⟨hbags', fun hD hdb hfit i B stmt result result' hi hi' hB hexact => ?_⟩
  exact hrows i hi hi' hB (DMLPlan.orderFree_of_exact hD hdb (hB.fit hfit) hexact)

/-! ### A transaction alone -/

/-- A statement reads its rows, and nothing else happens. -/
theorem trace_collect {R : Type} {stmt : DMLPlan} (next : List R → StmtProg) {s₁ : Dbms} : ∀ (st : RowStream R) (acc : List R)
    {rows : List R} {s : Dbms} {tr : List (Dbms × TxnId × Action)}, Trace (Step db D std) s₁ tr s →
    s.phase t = .executing stmt (st.collect next acc) → st.run s.tables = some rows →
    ∃ tr', Trace (Step db D std) s₁ tr' { s with phase := update s.phase t (.executing stmt (next (acc ++ rows))) }
  | .done, acc, rows, s, tr, htr, hphase, hrun => by
    cases hrun
    rw [List.append_nil, ← show s.phase t = .executing stmt (next acc) from hphase, Function.update_eq_self]
    exact ⟨tr, htr⟩
  | .fail, acc, rows, s, tr, htr, hphase, hrun => by cases hrun
  | .yield r rest, acc, rows, s, tr, htr, hphase, hrun => by
    obtain ⟨rows', hrun', rfl⟩ := Option.map_eq_some_iff.mp hrun
    have htrace := trace_collect next rest (acc ++ [r]) htr hphase hrun'
    rwa [List.append_assoc] at htrace
  | .look k rest, acc, rows, s, tr, htr, hphase, hrun => by
    rcases hv : s.tables k with _ | v
    · rw [Stream.run, hv] at hrun
      cases hrun
    · rw [Stream.run, hv] at hrun
      have hstep := htr.snoc (e := (t, .look k)) (.look hphase hv)
      have htrace := trace_collect next (rest v) acc hstep (Function.update_self ..) hrun
      rwa [Function.update_idem] at htrace

/-- **A `SELECT` of one table alone** in a transaction returns what the rows of its plan make. -/
theorem exists_run_select {tag : Optimizer.ScanTag} {conds : List Condition} {names : List String} {query : SelectQuery}
    {rows result : List Bytes} (hinit : Init db s) (hk : s.tables k = some v) (hlimit : query.limit = -1)
    (hrows : (planStream db (.scan tag k conds names)).run s.tables = some rows)
    (hsel : selectRows D std (planCols db (.scan tag k conds names)) query rows = .ok result) :
    ∃ (tr : List (Dbms × TxnId × Action)) (s' : Dbms), Trace (Step db D std) s tr s' ∧ s'.Ended ∧
      s'.work = [(.select (.scan tag k conds names) query, result)] := by
  have hqueue : requestLock (s.locks k) 1 .shared = some [⟨1, .shared⟩] := by
    rw [hinit.locks]
    rfl
  have hunlock : update (update s.locks k [⟨1, .shared⟩]) k [] = s.locks := by
    rw [Function.update_idem, ← hinit.locks k, Function.update_eq_self]
  have h₁ := (show Trace (Step db D std) s [] s from .nil).snoc (e := (1, .beginTxn)) (.beginTxn (hinit.phase 1))
  have h₂ := h₁.snoc (e := (1, .start (.select (.scan tag k conds names) query)))
    (.start rfl (show DMLPlan.NoLimit (.select _ query) from hlimit))
  have h₃ := h₂.snoc (e := (1, .acquire k false)) (.acquire rfl (by exact hk) (by exact hqueue))
  obtain ⟨tr, h₄⟩ := trace_collect (t := 1)
    (fun rows => .attempt (selectRows D std (planCols db (.scan tag k conds names)) query rows) .ret)
    (planStream db (.scan tag k conds names)) [] h₃ rfl hrows
  rw [List.nil_append, hsel] at h₄
  have h₅ := h₄.snoc (e := (1, .finish (.select (.scan tag k conds names) query) result)) (.finish rfl)
  have h₆ := h₅.snoc (e := (1, .commit)) (.commit rfl)
  have h₇ := h₆.snoc (e := (1, .unlock k)) (.unlock k (.inl rfl))
  have h₈ := h₇.snoc (e := (1, .leave)) (.leave (.inl rfl) fun k' => ?_)
  · refine ⟨_, _, h₈, ?_, ?_⟩
    · intro t
      by_cases ht : t = 1
      · exact .inr (by rw [ht]; rfl)
      · refine .inl ?_
        simp only [Function.update_of_ne ht]
        exact hinit.phase t
    · simp only [work, Function.update_self, hinit.committed, hinit.finished, List.nil_append]
      rfl
  · rintro ⟨r, hr, -⟩
    have hnil : update (update s.locks k [⟨1, .shared⟩]) k [] k' = [] := by rw [hunlock, hinit.locks]
    simp only [Function.update_self] at hr
    rw [show Transaction.unlock [(⟨1, .shared⟩ : LockRequest)] 1 = [] from rfl, hnil] at hr
    cases hr

end Runs

/-- A database with the table `k (a INT)`. -/
def dbK : DbMeta := ⟨fun name => if name = "k" then some tableK.tab else none⟩

/-- The server with this table. -/
def serverK : Dbms where
  tables name := if name = "k" then some tableK else none
  locks _ := []
  phase _ := .idle
  writeSet _ := []
  finished _ := []
  committed := []

theorem serverK_init : Init dbK serverK where
  locks _ := rfl
  phase _ := rfl
  writeSet _ := rfl
  finished _ := rfl
  committed := rfl
  tables k v hv := by
    simp only [serverK] at hv
    split_ifs at hv with hk
    cases hv
    exact ⟨tableK_spec.1, tableK_spec.2, hk.symm, if_pos hk⟩

/-- A transaction inserts a row. Another one is refused the lock meanwhile, and aborts. -/
theorem exists_run_insert : ∃ (tr : List (Dbms × TxnId × Action)) (s' : Dbms), Trace (Step dbK unitOps mergeSort) serverK tr s' ∧
    s'.Ended ∧ s'.work = [(DMLPlan.insert "k" [valueK 7], [])] := by
  have hinsert : (RowOp.insert [valueK 7]).apply tableK [] =
      some ((after (.insert [valueK 7]) ⟨tableK, []⟩).table, (after (.insert [valueK 7]) ⟨tableK, []⟩).writes) := by
    have hrun : Session.insert [valueK 7] ⟨tableK, []⟩ = (after (.insert [valueK 7]) ⟨tableK, []⟩, none) := rfl
    simp only [RowOp.apply, RowOp.exec, hrun]
  have hlocked : ∀ k, ¬ Holds (update serverK.locks "k" [⟨1, .exclusive⟩] k) 2 := by
    rintro k ⟨r, hr, hid⟩
    by_cases hk : k = "k"
    · rw [hk, Function.update_self] at hr
      obtain rfl := List.mem_singleton.mp hr
      cases hid
    · rw [Function.update_of_ne hk] at hr
      cases hr
  have hfree : ∀ k, ¬ Holds (update (update serverK.locks "k" [⟨1, .exclusive⟩]) "k" [] k) 1 := by
    rintro k ⟨r, hr, -⟩
    rw [Function.update_idem, show update serverK.locks "k" [] = serverK.locks from Function.update_eq_self ..] at hr
    cases hr
  have h₀ : Trace (Step dbK unitOps mergeSort) serverK [] serverK := .nil
  have h₁ := h₀.snoc (e := (1, .beginTxn)) (.beginTxn rfl)
  have h₂ := h₁.snoc (e := (2, .beginTxn)) (.beginTxn rfl)
  have h₃ := h₂.snoc (e := (1, .start (.insert "k" [valueK 7]))) (.start rfl (show DMLPlan.NoLimit (.insert "k" [valueK 7]) from trivial))
  have h₄ := h₃.snoc (e := (1, .acquire "k" true)) (.acquire rfl rfl rfl)
  have h₅ := h₄.snoc (e := (2, .start (.insert "k" [valueK 8]))) (.start rfl (show DMLPlan.NoLimit (.insert "k" [valueK 8]) from trivial))
  have h₆ := h₅.snoc (e := (2, .refuse "k" true)) (.refuse rfl rfl rfl)
  have h₇ := h₆.snoc (e := (1, .write "k" (.insert [valueK 7]))) (.write rfl rfl hinsert)
  have h₈ := h₇.snoc (e := (1, .finish (.insert "k" [valueK 7]) [])) (.finish rfl)
  have h₉ := h₈.snoc (e := (1, .commit)) (.commit rfl)
  have h₁₀ := h₉.snoc (e := (2, .leave)) (.leave (.inr ⟨rfl, rfl⟩) hlocked)
  have h₁₁ := h₁₀.snoc (e := (1, .unlock "k")) (.unlock "k" (.inl rfl))
  have h₁₂ := h₁₁.snoc (e := (1, .leave)) (.leave (.inl rfl) hfree)
  refine ⟨_, _, h₁₂, ?_, rfl⟩
  intro t
  by_cases h₁ : t = 1
  · exact .inr (by rw [h₁]; rfl)
  · by_cases h₂ : t = 2
    · exact .inr (by rw [h₂]; rfl)
    · refine .inl ?_
      simp only [Function.update_of_ne h₁, Function.update_of_ne h₂]
      rfl

/-! ### Rows in another order -/

/-- The integer that the single with this bit pattern is. -/
def singleInt (n : ℕ) : ℤ :=
  let m := 2 ^ 23 + n % 2 ^ 23
  let e := n / 2 ^ 23 % 2 ^ 8
  (if n < 2 ^ 31 then 1 else -1) * (if 150 ≤ e then m * 2 ^ (e - 150) else m / 2 ^ (150 - e) : ℕ)

/-- The single that is nearest to an integer. -/
def intSingle (x : ℤ) : ℕ :=
  let m := roundNat 24 x.natAbs
  if m = 0 then 0 else (if x < 0 then 2 ^ 31 else 0) + (m.size + 126) * 2 ^ 23 + (m * 2 ^ 24 / 2 ^ m.size - 2 ^ 23)

/-- The doubles and the singles that are integers. -/
def integers : DoubleOps :=
  { intDouble 0 with
    addFloat := fun (d : ℤ) n => roundInt 53 (d + singleInt n)
    toFloat := intSingle }

theorem integers_ieee : integers.Ieee fun d n => d = n :=
  ⟨(intDouble_ieee 0).zero, (intDouble_ieee 0).addInt, (intDouble_ieee 0).toInt⟩

/-- The table `f (a FLOAT, b FLOAT, c INT)`. -/
def tabF : TabMeta := ⟨"f", [⟨"f", "a", .float, 4, 0⟩, ⟨"f", "b", .float, 4, 4⟩, ⟨"f", "c", .int, 4, 8⟩], []⟩

/-- A catalog with this table only. -/
def dbF : DbMeta := ⟨fun name => if name = "f" then some tabF else none⟩

/-- A row is inserted. -/
def insertF (row : ℕ × ℕ × ℤ) : Stmt :=
  .insert [⟨.float row.1, some (leBytes 4 row.1)⟩, ⟨.float row.2.1, some (leBytes 4 row.2.1)⟩, valueK row.2.2]

/-- The table with some rows. -/
def tableF : List (ℕ × ℕ × ℤ) → Table
  | [] => Table.create tabF ⟨1, 336, RM_NO_PAGE, fun _ => ⟨0, 0, []⟩⟩ 4
  | row :: rows => (after (insertF row) ⟨tableF rows, []⟩).table

/-- No row is refused. -/
def accepted : List (ℕ × ℕ × ℤ) → Bool
  | [] => true
  | row :: rows => ((insertF row).exec ⟨tableF rows, []⟩).2.isNone && accepted rows

theorem tableF_spec : ∀ {rows : List (ℕ × ℕ × ℤ)}, accepted rows →
    (tableF rows).Ok ∧ (tableF rows).Agrees ∧ (tableF rows).tab = tabF
  | [], _ =>
    have h := Table.create_spec (show tabF.indexes.Nodup by decide) (show (1 : ℤ) ≤ 12 by decide) (by decide) rfl (by decide)
    ⟨h.1, h.2, rfl⟩
  | row :: rows, h => by
    obtain ⟨hrow, hrows⟩ := Bool.and_eq_true_iff.mp h
    obtain ⟨hok, ha, htab⟩ := tableF_spec hrows
    have hprog := exec_progress hok ha (show (insertF row).exec ⟨tableF rows, []⟩ = (after (insertF row) ⟨tableF rows, []⟩, none) from
      Prod.ext rfl (Option.isNone_iff_eq_none.mp hrow))
    exact ⟨hprog.ok, hprog.agrees, hprog.tab.trans htab⟩

/-- The server with this table. -/
def serverF (rows : List (ℕ × ℕ × ℤ)) : Dbms :=
  { serverK with tables := fun name => if name = "f" then some (tableF rows) else none }

theorem serverF_init {rows : List (ℕ × ℕ × ℤ)} (h : accepted rows) : Init dbF (serverF rows) where
  locks _ := rfl
  phase _ := rfl
  writeSet _ := rfl
  finished _ := rfl
  committed := rfl
  tables k v hv := by
    simp only [serverF] at hv
    split_ifs at hv with hk
    cases hv
    obtain ⟨hok, ha, htab⟩ := tableF_spec h
    exact ⟨hok, ha, htab ▸ hk.symm, by rw [htab]; exact if_pos hk⟩

/-- `2^60`, `-2^60` and `1` in `a`, and a `0.0` and two `-0.0` in `b`; the last row is the first that is stored. -/
def rowsF : List (ℕ × ℕ × ℤ) := [(0x3f800000, 0x80000000, 1), (0xdd800000, 0x80000000, 2), (0x5d800000, 0, 3)]

/-- The same rows in another order. -/
def rowsF' : List (ℕ × ℕ × ℤ) := [(0xdd800000, 0x80000000, 2), (0x5d800000, 0, 3), (0x3f800000, 0x80000000, 1)]

/-- A row in bytes. -/
def bytesF (row : ℕ × ℕ × ℤ) : Bytes := leBytes 4 row.1 ++ leBytes 4 row.2.1 ++ intBytes 4 row.2.2

/-- `SELECT agg FROM f`. -/
def selectF (agg : AggCall) : DMLPlan := .select (.scan .seqScan "f" [] []) ⟨[], none, [agg], -1⟩

theorem accepted_rowsF : accepted rowsF = true ∧ accepted rowsF' = true := by decide +kernel

theorem records_rowsF : (tableF rowsF).fh.rids.filterMap (tableF rowsF).fh.records = rowsF.reverse.map bytesF ∧
    (tableF rowsF').fh.rids.filterMap (tableF rowsF').fh.records = rowsF'.reverse.map bytesF := by decide +kernel

theorem run_rowsF : (planStream dbF (.scan .seqScan "f" [] [])).run (serverF rowsF).tables = some (rowsF.reverse.map bytesF) ∧
    (planStream dbF (.scan .seqScan "f" [] [])).run (serverF rowsF').tables = some (rowsF'.reverse.map bytesF) := by decide +kernel

theorem bags_rowsF : (serverF rowsF').bags = (serverF rowsF).bags := by
  funext k
  by_cases hk : k = "f"
  · subst hk
    show (((tableF rowsF').fh.rids.filterMap (tableF rowsF').fh.records : List Bytes) : Multiset Bytes) =
      ((tableF rowsF).fh.rids.filterMap (tableF rowsF).fh.records : List Bytes)
    rw [records_rowsF.1, records_rowsF.2]
    decide
  · simp only [bags, serverF, if_neg hk]

/-- One transaction asks for an aggregate, on either server. -/
theorem exists_run_rowsF {agg : AggCall} {result result' : List Bytes}
    (h : selectRows integers mergeSort tabF.cols ⟨[], none, [agg], -1⟩ (rowsF.reverse.map bytesF) = .ok result)
    (h' : selectRows integers mergeSort tabF.cols ⟨[], none, [agg], -1⟩ (rowsF'.reverse.map bytesF) = .ok result') :
    (∃ (tr : List (Dbms × TxnId × Action)) (s' : Dbms), Trace (Step dbF integers mergeSort) (serverF rowsF) tr s' ∧ s'.Ended ∧
      s'.work = [(selectF agg, result)]) ∧
    ∃ (tr : List (Dbms × TxnId × Action)) (s' : Dbms), Trace (Step dbF integers mergeSort) (serverF rowsF') tr s' ∧ s'.Ended ∧
      s'.work = [(selectF agg, result')] :=
  ⟨exists_run_select (serverF_init accepted_rowsF.1) rfl rfl run_rowsF.1 h,
    exists_run_select (serverF_init accepted_rowsF.2) rfl rfl run_rowsF.2 h'⟩

theorem dbF_ok : dbF.Ok where
  tabs {t tab} h := by
    simp only [dbF] at h
    split_ifs at h with ht
    cases h
    exact ⟨ht.symm, by decide, by decide, fun index hi => by cases hi⟩

theorem bagsFit_rowsF : BagsFit dbF (serverF rowsF).bags := by
  intro k tab htab
  simp only [dbF] at htab
  split_ifs at htab with hk
  cases htab
  subst hk
  refine ⟨by decide, ?_⟩
  intro rec hrec
  have hmem : rec ∈ ((tableF rowsF).fh.rids.filterMap (tableF rowsF).fh.records : List Bytes) := hrec
  rw [records_rowsF.1] at hmem
  exact (show ∀ rec ∈ rowsF.reverse.map bytesF, rec.length = tabF.recordSize by decide) rec hmem

/-- `SUM(c)` is exact. -/
theorem exact_rowsF : (selectF ⟨.sum, ⟨"f", "c"⟩, "s"⟩).Exact dbF (serverF rowsF).bags := by
  intro agg hagg src hsrc
  obtain rfl := List.mem_singleton.mp hagg
  cases hsrc
  have hbag : planBag dbF (serverF rowsF).bags (.scan .seqScan "f" [] []) = (rowsF.reverse.map bytesF : List Bytes) := by
    show (((tableF rowsF).fh.rids.filterMap (tableF rowsF).fh.records : List Bytes) : Multiset Bytes).filter
      (picks tabF .seqScan "f" [] [] ·) = _
    rw [records_rowsF.1]
    exact Multiset.filter_eq_self.mpr fun _ _ => rfl
  rw [hbag]
  exact ⟨by decide, fun _ => by decide⟩

/-- A transaction inserts a row while another one is refused the lock, and aborts. A sum of an `INT` column is the same wherever the
records are. -/
theorem serializable_insert :
    (∃ s' : Dbms, s'.Ended ∧ s'.work = [(DMLPlan.insert "k" [valueK 7], [])] ∧
      MeansAll dbK unitOps mergeSort serverK.bags s'.work s'.bags) ∧
    ∃ (s' r' : Dbms) (result result' : List Bytes), s'.work = [(selectF ⟨.sum, ⟨"f", "c"⟩, "s"⟩, result)] ∧
      r'.work = [(selectF ⟨.sum, ⟨"f", "c"⟩, "s"⟩, result')] ∧ r'.bags = s'.bags ∧ result.Perm result' := by
  constructor
  · obtain ⟨tr, s', hrun, hend, hwork⟩ := exists_run_insert
    exact ⟨s', hend, hwork, (serializable serverK_init hrun hend).1⟩
  · obtain ⟨⟨tr, s', hrun, hend, hwork⟩, tr', r', hrun', hend', hwork'⟩ :=
      exists_run_rowsF (show selectRows integers mergeSort tabF.cols ⟨[], none, [⟨.sum, ⟨"f", "c"⟩, "s"⟩], -1⟩
        (rowsF.reverse.map bytesF) = .ok [intBytes 4 6] from rfl)
      (show selectRows integers mergeSort tabF.cols _ _ = .ok [intBytes 4 6] from rfl)
    obtain ⟨hbags, hrows⟩ := (serializable (serverF_init accepted_rowsF.1) hrun hend).2 (serverF_init accepted_rowsF.2)
      bags_rowsF hrun' hend' (by rw [hwork, hwork'])
    exact ⟨s', r', _, _, hwork, hwork', hbags, hrows integers_ieee dbF_ok bagsFit_rowsF 0 (by rw [hwork]; rfl) (by rw [hwork']; rfl) rfl
      exact_rowsF⟩

/-- Where the records are matters: two runs of a transaction that asks for the aggregate, on the same records, return
other rows. -/
def PlacementMatters (agg : AggCall) : Prop :=
  ∃ (s s' r r' : Dbms) (tr tr' : List (Dbms × TxnId × Action)) (result result' : Bytes), Init dbF s ∧ Init dbF r ∧
    r.bags = s.bags ∧ Trace (Step dbF integers mergeSort) s tr s' ∧ s'.Ended ∧ Trace (Step dbF integers mergeSort) r tr' r' ∧
    r'.Ended ∧ s'.work = [(selectF agg, [result])] ∧ r'.work = [(selectF agg, [result'])] ∧ result ≠ result'

theorem placementMatters_of_rows {agg : AggCall} {result result' : Bytes} (hne : result ≠ result')
    (hsel : selectRows integers mergeSort tabF.cols ⟨[], none, [agg], -1⟩ (rowsF.reverse.map bytesF) = .ok [result])
    (hsel' : selectRows integers mergeSort tabF.cols ⟨[], none, [agg], -1⟩ (rowsF'.reverse.map bytesF) = .ok [result']) :
    PlacementMatters agg := by
  obtain ⟨⟨tr, s', hrun, hend, hwork⟩, tr', r', hrun', hend', hwork'⟩ := exists_run_rowsF hsel hsel'
  exact ⟨serverF rowsF, s', serverF rowsF', r', tr, tr', result, result', serverF_init accepted_rowsF.1,
    serverF_init accepted_rowsF.2, bags_rowsF, hrun, hend, hrun', hend', hwork, hwork', hne⟩

/-- A sum of a `FLOAT` column and its greatest value depend on where the records are. -/
theorem serializable_fails :
    PlacementMatters ⟨.sum, ⟨"f", "a"⟩, "s"⟩ ∧ PlacementMatters ⟨.max, ⟨"f", "b"⟩, "m"⟩ := by
  constructor
  · have hne : leBytes 4 0x3f800000 ≠ leBytes 4 0 := by decide
    exact placementMatters_of_rows hne rfl rfl
  · have hne : leBytes 4 0 ≠ leBytes 4 0x80000000 := by decide
    exact placementMatters_of_rows hne rfl rfl

end Dbms

end Rmdb.Transaction
