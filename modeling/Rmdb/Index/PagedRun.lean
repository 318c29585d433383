import Rmdb.Index.PagedTree
import Rmdb.Index.RangeScan
import Rmdb.Record.HeapMap

/-!
# The index in bytes is a finite map

An index is created, opened and used: every call returns what a finite map would (`Call.Right`), through the bytes of pages that come
and go in a pool that is shared with others. The pool never runs out of frames if `63` are left by the others: the tree has at most
`30` levels above the leaves, since its pages are counted by an `int`.

One kind of call can throw. A scan that runs onto an emptied leaf, or whose keys are crossed, throws `IndexEntryNotFoundError`,
and the pin that `get_rid` holds is lost. No other call loses a pin.
-/

namespace Rmdb.Index.Paged

open Lib Storage NodePage
open Record (InInt)
open Record.Paged (INT_MAX)

variable {E : Env} {s s' : IxIndexHandle} {pins : List Pin} {ih ih' : Index.IxIndexHandle (Key E.T.keyCols)}
  {lv : List (Leaf (Key E.T.keyCols))} {lvls : List (List (Inner (Key E.T.keyCols)))}

/-! ### Scans -/

/-- A walk that ends. -/
theorem Rep.scan {last i i' : Iid} {L : List Rid} (hv : (ih.ixScan last).Visits i L i') (hend : (ih.ixScan last).isEnd i' = true)
    (hroom : pins.length < E.poolSize) : ∀ {b : ℕ} {s : IxIndexHandle}, L.length < b → Rep E s pins ih →
      Returns (scan E.T.toNodeLayout last b i) s fun rids s' => rids = L ∧ Rep E s' pins ih := by
  induction hv with
  | nil i =>
    intro b s hb h
    obtain ⟨b, rfl⟩ := Nat.exists_eq_add_of_lt hb
    unfold Paged.scan
    rw [if_pos (of_decide_eq_true hend)]
    exact Returns.pure ⟨rfl, h⟩
  | @cons i i₁ i' rid L hne hread hnext _ hind =>
    intro b s hb h
    obtain ⟨b, rfl⟩ := Nat.exists_eq_add_of_lt hb
    have hb' : L.length < (rid :: L).length + b := by
      rw [List.length_cons]
      omega
    unfold Paged.scan
    rw [if_neg (of_decide_eq_false hne)]
    refine Returns.bind (h.getRid hroom hread) ?_
    intro rid' s₁ h₁
    rw [h₁.1]
    refine Returns.bind (h₁.2.ixNext hroom hnext) ?_
    intro next s₂ h₂
    rw [h₂.1]
    refine Returns.bind (hind hend hb' h₂.2) ?_
    intro rest s₃ h₃
    rw [h₃.1]
    exact Returns.pure ⟨rfl, h₃.2⟩

/-- A walk that runs onto a slot without a pair: it throws, and a pin is lost. -/
theorem Rep.scan_error {last i i' : Iid} {L : List Rid} (hv : (ih.ixScan last).Visits i L i')
    (hend : (ih.ixScan last).isEnd i' = false) (hread : ih.getRid i' = .error .indexEntryNotFound) (hroom : pins.length < E.poolSize) :
    ∀ {b : ℕ} {s : IxIndexHandle}, L.length < b → Rep E s pins ih →
      ∃ p f s', Paged.scan E.T.toNodeLayout last b i s = .error .indexEntryNotFound s' ∧ Rep E s' (E.pin p f false :: pins) ih := by
  induction hv with
  | nil i =>
    intro b s hb h
    obtain ⟨b, rfl⟩ := Nat.exists_eq_add_of_lt hb
    obtain ⟨f, s₁, hrun, h₁⟩ := h.getRid_error hroom hread
    refine ⟨i.pageNo, f, s₁, ?_, h₁⟩
    unfold Paged.scan
    rw [if_neg (of_decide_eq_false hend), bind_of_error hrun]
  | @cons i i₁ i' rid L hne hread' hnext _ hind =>
    intro b s hb h
    obtain ⟨b, rfl⟩ := Nat.exists_eq_add_of_lt hb
    have hb' : L.length < (rid :: L).length + b := by
      rw [List.length_cons]
      omega
    obtain ⟨rid', s₁, hrun₁, hrid, h₁⟩ := h.getRid hroom hread'
    obtain ⟨next, s₂, hrun₂, rfl, h₂⟩ := h₁.ixNext hroom hnext
    obtain ⟨p, f, s₃, hrun₃, h₃⟩ := hind hend hread hb' h₂
    refine ⟨p, f, s₃, ?_, h₃⟩
    unfold Paged.scan
    rw [if_neg (of_decide_eq_false hne), bind_of_ok hrun₁, bind_of_ok hrun₂]
    exact bind_of_error hrun₃

/-- **A scan between two keys**: the entries between them, or a lost pin. -/
theorem Rep.rangeScan (h : Rep E s pins ih) (hinv : ih.Inv lv lvls) (hroom : pins.length < E.poolSize) (lo hi : Key E.T.keyCols) :
    (¬ Index.IxIndexHandle.Crossed lv lo hi → ¬ Index.IxIndexHandle.Gap lv lo hi →
      Returns (rangeScan E.T.toNodeLayout lo.1 hi.1) s fun rids s' =>
        rids = Index.IxIndexHandle.between lv lo hi ∧ Rep E s' pins ih) ∧
    (Index.IxIndexHandle.Crossed lv lo hi ∨ Index.IxIndexHandle.Gap lv lo hi → ∃ p f s',
      Paged.rangeScan E.T.toNodeLayout lo.1 hi.1 s = .error .indexEntryNotFound s' ∧ Rep E s' (E.pin p f false :: pins) ih) := by
  obtain ⟨first, last, hfirst, hlast, hok, herr⟩ := hinv.scan_cases lo hi
  obtain ⟨first, s₁, hrun₁, rfl, h₁⟩ := h.lowerBound hroom hfirst
  obtain ⟨last, s₂, hrun₂, rfl, h₂⟩ := h₁.upperBound hroom hlast
  have hcontents := hinv.length_contents_le
  rw [h₂.maxSize, ← h₂.bound] at hcontents
  have hstart : ∀ {r}, Paged.scan E.T.toNodeLayout last (s₂.bound * E.T.maxSize + 1) first s₂ = r →
      Paged.rangeScan E.T.toNodeLayout lo.1 hi.1 s = r := fun hr => by
    unfold Paged.rangeScan
    rw [bind_of_ok hrun₁, bind_of_ok hrun₂, bind_of_ok (show (get : M IxIndexHandle) s₂ = .ok s₂ s₂ from rfl)]
    exact hr
  constructor
  · intro hcross hgap
    obtain ⟨i, hv, hend⟩ := hok hcross hgap
    have hlen := (Index.IxIndexHandle.between_sublist lv lo hi).length_le
    rw [List.length_map] at hlen
    obtain ⟨rids, s₃, hrun₃, heq, h₃⟩ := h₂.scan hv hend hroom (Nat.lt_succ_of_le (hlen.trans hcontents))
    exact ⟨rids, s₃, hstart hrun₃, heq, h₃⟩
  · intro hcase
    obtain ⟨L, i, hv, hL, hend, hread⟩ := herr hcase
    have hlen := hL.length_le
    rw [List.length_map] at hlen
    obtain ⟨p, f, s₃, hrun₃, h₃⟩ := h₂.scan_error hv hend hread hroom (Nat.lt_succ_of_le (hlen.trans hcontents))
    exact ⟨p, f, s₃, hstart hrun₃, h₃⟩

/-! ### Right answers -/

section Answers

variable {K : Type}

/-- What a call does to the tree. -/
def Call.update : Call K → List (Op K)
  | .insert key value => [.insert key value]
  | .delete key => [.delete key]
  | .getValue _ => []
  | .scan _ _ => []

/-- What the calls do to the tree. -/
def updates (calls : List (Call K)) : List (Op K) := calls.flatMap Call.update

/-- It is a scan. -/
def Call.isScan : Call K → Bool
  | .scan _ _ => true
  | _ => false

/-- The calls that have thrown. -/
def failures (answers : List (Except Error Answer)) : ℕ := answers.countP fun a => !a.isOk

variable [LinearOrder K]

/-- A scan between these keys fails: a leaf with a key between them is followed by an emptied one, or a key is beyond both. -/
def Blocked (order : ℕ) (ops : List (Op K)) (lo hi : K) : Prop :=
  (∃ ih, runOps (Index.IxIndexHandle.createIndex order) ops = some ih ∧ ih.EmptyLeafAhead lo hi) ∨
    ∃ k r, HeldFrom ops k r ∧ hi < k ∧ k < lo

/-- **The right answer** to a call, after insertions and deletions. -/
def Call.Right (order : ℕ) (ops : List (Op K)) : Call K → Except Error Answer → Prop
  | .insert _ _, a => ∃ pageNo, a = .ok (.inserted pageNo)
  | .delete key, a => ∃ there, a = .ok (.deleted there) ∧ (there = true ↔ ∃ r, HeldFrom ops key r)
  | .getValue key, a => ∃ v, a = .ok (.value v) ∧ ∀ r, v = some r ↔ HeldFrom ops key r
  | .scan lo hi, a => (Blocked order ops lo hi → a = .error .indexEntryNotFound) ∧
      (¬ Blocked order ops lo hi → ∃ es : List (K × Rid), SortedKeys es ∧
        (∀ k r, (k, r) ∈ es ↔ HeldFrom ops k r ∧ lo ≤ k ∧ k ≤ hi) ∧ a = .ok (.rids (es.map (·.2))))

/-- The right answers to calls, one after another. -/
def AllRight (order : ℕ) : List (Op K) → List (Call K) → List (Except Error Answer) → Prop
  | _, [], [] => True
  | ops, call :: calls, a :: answers => call.Right order ops a ∧ AllRight order (ops ++ call.update) calls answers
  | _, _, _ => False

end Answers

/-! ### The tree -/

section Tree

variable {kc : KeyCols} {order : ℕ} {ops : List (Op (Key kc))} {tree : Index.IxIndexHandle (Key kc)} {lv : List (Leaf (Key kc))}
  {lvls : List (List (Inner (Key kc)))}

/-- The tree that insertions and deletions have made. -/
structure Built (order : ℕ) (ops : List (Op (Key kc))) (ih : Index.IxIndexHandle (Key kc)) (lv : List (Leaf (Key kc)))
    (lvls : List (List (Inner (Key kc)))) : Prop where
  run : runOps (Index.IxIndexHandle.createIndex order) ops = some ih
  inv : ih.Inv lv lvls
  wide : ih.Wide
  map : lookupKey (contents lv) = ops.foldl Op.applyMap fun _ => none

/-- An empty tree. -/
theorem built_createIndex (kc : KeyCols) {order : ℕ} (horder : 2 < order) :
    ∃ lv lvls, Built order ([] : List (Op (Key kc))) (Index.IxIndexHandle.createIndex order) lv lvls :=
  ⟨_, _, rfl, Index.IxIndexHandle.createIndex_inv horder default, Index.IxIndexHandle.createIndex_wide horder, rfl⟩

/-- **The tree of an index is well formed**: its keys are bytes, and its order is the one that `create_index` computes. -/
theorem exists_wellFormed (htot : colTotLen kc.cols ≤ IX_MAX_COL_LEN) (ops : List (Op (Key kc))) :
    ∃ ih, runOps (Index.IxIndexHandle.createIndex (btreeOrderOf (colTotLen kc.cols))) ops = some ih ∧ ih.WellFormed := by
  obtain ⟨lv, lvls, hbuilt⟩ := built_createIndex kc (btreeOrderOf_fits htot).1
  obtain ⟨ih, lv', lvls', hrun, hinv, -⟩ := run_inv ops hbuilt.inv
  exact ⟨ih, hrun, hinv.wellFormed⟩

/-- **A range scan of an index** is exact if and only if it meets no empty leaf on its way. -/
theorem exists_scanExact_iff (htot : colTotLen kc.cols ≤ IX_MAX_COL_LEN) (ops : List (Op (Key kc))) {lo hi : Key kc} (hle : lo ≤ hi) :
    ∃ ih first last, runOps (Index.IxIndexHandle.createIndex (btreeOrderOf (colTotLen kc.cols))) ops = some ih ∧
      ih.lowerBound lo = some first ∧ ih.upperBound hi = some last ∧
      (ih.ScanExact lo hi first last ↔ ¬ ih.EmptyLeafAhead lo hi) := by
  obtain ⟨lv, lvls, hbuilt⟩ := built_createIndex kc (btreeOrderOf_fits htot).1
  obtain ⟨ih, lv', lvls', hrun, hinv, -⟩ := run_inv ops hbuilt.inv
  obtain ⟨first, last, hfirst, hlast, hiff⟩ := hinv.scanExact_iff hle
  exact ⟨ih, first, last, hrun, hfirst, hlast, hiff⟩

theorem runOps_append {ih₀ : Index.IxIndexHandle (Key kc)} (h : runOps ih₀ ops = some tree) (ops' : List (Op (Key kc))) :
    runOps ih₀ (ops ++ ops') = runOps tree ops' := by
  unfold runOps at h ⊢
  rw [List.foldlM_append, h]
  rfl

/-- One more insertion or deletion. -/
theorem Built.apply (h : Built order ops tree lv lvls) (op : Op (Key kc)) :
    ∃ tree' lv' lvls', op.apply tree = some tree' ∧ Built order (ops ++ [op]) tree' lv' lvls' := by
  obtain ⟨tree', lv', lvls', hop, hinv, hmap⟩ := apply_inv h.inv op
  have hone : runOps tree [op] = op.apply tree := by simp [runOps]
  refine ⟨tree', lv', lvls', hop, (runOps_append h.run _).trans (hone.trans hop), hinv,
    (Index.IxIndexHandle.Grows.apply hop).wide h.wide, ?_⟩
  rw [hmap, h.map, List.foldl_append]
  rfl

/-- What the tree holds. -/
theorem Built.held (h : Built order ops tree lv lvls) (k : Key kc) (r : Rid) :
    lookupKey (contents lv) k = some r ↔ HeldFrom ops k r := by
  rw [h.map]
  exact (foldl_applyMap_iff k ops).2 r

/-- There are not fewer pages later. -/
theorem Built.pages_le (h : Built order ops tree lv lvls) {ops' ops'' : List (Op (Key kc))}
    (hint : ∀ ih, runOps (Index.IxIndexHandle.createIndex order) (ops ++ ops' ++ ops'') = some ih → ih.fd2pageno ≤ INT_MAX) :
    ∀ ih, runOps (Index.IxIndexHandle.createIndex order) (ops ++ ops') = some ih → ih.fd2pageno ≤ INT_MAX := by
  intro ih₁ hrun
  obtain ⟨ih₁', lv₁, lvls₁, hrun', hinv, -⟩ := run_inv ops' h.inv
  obtain rfl := Option.some.inj (hrun.symm.trans ((runOps_append h.run _).trans hrun'))
  obtain ⟨ih', lv', lvls', hrest, -⟩ := run_inv ops'' hinv
  exact (Index.IxIndexHandle.Grows.runOps hrest).count.trans (hint ih' ((runOps_append hrun _).trans hrest))

end Tree

/-! ### One call -/

/-- The pages stand for the tree that the insertions and deletions have made. -/
structure Sound (E : Env) (ops : List (Op (Key E.T.keyCols))) (s : IxIndexHandle) (pins : List Pin)
    (ih : Index.IxIndexHandle (Key E.T.keyCols)) (lv : List (Leaf (Key E.T.keyCols)))
    (lvls : List (List (Inner (Key E.T.keyCols)))) : Prop extends Built E.T.btreeOrder ops ih lv lvls where
  rep : Rep E s pins ih

variable {ops : List (Op (Key E.T.keyCols))}

/-- The tree is low. -/
theorem Sound.height (h : Sound E ops s pins ih lv lvls) : lvls.length ≤ 30 := by
  have hpow := h.inv.pow_le h.wide
  have hint : ih.fd2pageno ≤ INT_MAX := by
    obtain ⟨contents, hrep⟩ := h.rep
    exact hrep.int
  by_contra hlt
  have hle : (2 : ℤ) ^ 31 ≤ 2 ^ lvls.length := by exact_mod_cast Nat.pow_le_pow_right (n := 2) (by decide) (not_le.mp hlt)
  unfold INT_MAX at hint
  omega

/-- A call that returns. -/
theorem Call.outcome_of_returns {α : Type} (call : Call (Key E.T.keyCols)) (answer : α → Answer) {x : M α} {v : α}
    {P : IxIndexHandle → Prop} (hcall : call.run E.T.toNodeLayout (·.1) = x >>= fun v => pure (answer v))
    (h : Returns x s fun v' s' => v' = v ∧ P s') :
    ∃ s', call.outcome E.T.toNodeLayout (·.1) s = (.ok (answer v), s') ∧ P s' := by
  obtain ⟨v', s', hrun, rfl, hP⟩ := h
  refine ⟨s', ?_, hP⟩
  rw [Call.outcome, hcall, bind_of_ok hrun]
  rfl

/-- **One call**: its answer is right, and it loses a pin if and only if it fails. -/
theorem Sound.step (h : Sound E ops s pins ih lv lvls) (call : Call (Key E.T.keyCols))
    (hvalue : ∀ key value, call = .insert key value → RidOk value) (hroom : pins.length + 63 ≤ E.poolSize)
    (hint : ∀ ih', runOps (Index.IxIndexHandle.createIndex E.T.btreeOrder) (ops ++ call.update) = some ih' → ih'.fd2pageno ≤ INT_MAX) :
    ∃ a s' ih' lv' lvls' lost, call.outcome E.T.toNodeLayout (·.1) s = (a, s') ∧ call.Right E.T.btreeOrder ops a ∧
      lost.length = failures [a] ∧ lost.length ≤ [call].countP Call.isScan ∧ (∀ x ∈ lost, x.pid.fd = E.fd) ∧
      Sound E (ops ++ call.update) s' (lost ++ pins) ih' lv' lvls' := by
  have hheight := h.height
  cases call with
  | insert key value =>
    obtain ⟨ih', lv', lvls', hop, hbuilt⟩ := h.apply (.insert key value)
    obtain ⟨⟨ih₁, leaf⟩, hins, rfl⟩ := Option.map_eq_some_iff.mp hop
    obtain ⟨s', hout, hrep⟩ := Call.outcome_of_returns (.insert key value) .inserted rfl
      (h.rep.insertEntry h.inv (hvalue key value rfl) (by omega) hins (hint _ hbuilt.run))
    exact ⟨_, s', ih₁, lv', lvls', [], hout, ⟨leaf, rfl⟩, rfl, Nat.zero_le _, by simp, hbuilt, hrep⟩
  | delete key =>
    obtain ⟨ih', lv', lvls', hop, hbuilt⟩ := h.apply (.delete key)
    obtain ⟨⟨ih₁, there⟩, hdel, rfl⟩ := Option.map_eq_some_iff.mp hop
    obtain ⟨s', hout, hrep⟩ := Call.outcome_of_returns (.delete key) .deleted rfl (h.rep.deleteEntry (by omega) hdel)
    have hthere : there = true ↔ ∃ r, HeldFrom ops key r := by
      simp only [← h.held]
      rcases hk : lookupKey (contents lv) key with _ | r
      · rw [h.inv.deleteEntry_absent hk] at hdel
        obtain ⟨-, rfl⟩ := Prod.mk.inj (Option.some.inj hdel)
        simp
      · obtain ⟨ih₂, lv₂, lvls₂, C, D, hdel', -⟩ := h.inv.deleteEntry_present hk
        rw [hdel'] at hdel
        obtain ⟨-, rfl⟩ := Prod.mk.inj (Option.some.inj hdel)
        simp
    exact ⟨_, s', ih₁, lv', lvls', [], hout, ⟨there, rfl, hthere⟩, rfl, Nat.zero_le _, by simp, hbuilt, hrep⟩
  | getValue key =>
    obtain ⟨s', hout, hrep⟩ := Call.outcome_of_returns (.getValue key) .value rfl (h.rep.getValue (by omega) (h.inv.getValue_eq key))
    refine ⟨_, s', ih, lv, lvls, [], hout, ⟨_, rfl, h.held key⟩, rfl, Nat.zero_le _, by simp, ?_⟩
    exact { h with run := (List.append_nil ops).symm ▸ h.run, map := (List.append_nil ops).symm ▸ h.map, rep := hrep }
  | scan lo hi =>
    have hmem : ∀ k r, (k, r) ∈ contents lv ↔ HeldFrom ops k r := fun k r => by
      rw [← h.held, h.inv.sorted_contents.lookupKey_eq_some]
    have hblocked : Blocked E.T.btreeOrder ops lo hi ↔
        Index.IxIndexHandle.Crossed lv lo hi ∨ Index.IxIndexHandle.Gap lv lo hi := by
      rw [← h.inv.emptyLeafAhead_iff, Blocked, or_comm]
      refine or_congr ⟨?_, ?_⟩ ⟨?_, fun hahead => ⟨ih, h.run, hahead⟩⟩
      · rintro ⟨k, r, hk, hlt⟩
        exact ⟨(k, r), (hmem k r).mpr hk, hlt⟩
      · rintro ⟨e, he, hlt⟩
        exact ⟨e.1, e.2, (hmem e.1 e.2).mp he, hlt⟩
      · rintro ⟨ih', hrun, hahead⟩
        obtain rfl := Option.some.inj (h.run.symm.trans hrun)
        exact hahead
    obtain ⟨hok, herr⟩ := h.rep.rangeScan h.inv (by omega) lo hi
    have hsound : ∀ {s' pins'}, Rep E s' pins' ih → Sound E (ops ++ Call.update (.scan lo hi)) s' pins' ih lv lvls :=
      fun hrep => { h with run := (List.append_nil ops).symm ▸ h.run, map := (List.append_nil ops).symm ▸ h.map, rep := hrep }
    by_cases hcase : Index.IxIndexHandle.Crossed lv lo hi ∨ Index.IxIndexHandle.Gap lv lo hi
    · obtain ⟨p, f, s', hrun, hrep⟩ := herr hcase
      have hout : (Call.scan lo hi).outcome E.T.toNodeLayout (·.1) s = (.error .indexEntryNotFound, s') := by
        rw [Call.outcome, show (Call.scan lo hi).run E.T.toNodeLayout (·.1) s = .error .indexEntryNotFound s' from bind_of_error hrun]
      refine ⟨_, s', ih, lv, lvls, [E.pin p f false], hout, ⟨fun _ => rfl, fun hno => absurd (hblocked.mpr hcase) hno⟩, rfl, le_refl _,
        ?_, hsound hrep⟩
      intro x hx
      rw [List.mem_singleton.mp hx]
      rfl
    · rw [not_or] at hcase
      obtain ⟨s', hout, hrep⟩ := Call.outcome_of_returns (.scan lo hi) .rids rfl (hok hcase.1 hcase.2)
      refine ⟨_, s', ih, lv, lvls, [], hout, ⟨fun hyes => absurd (hblocked.mp hyes) (not_or.mpr hcase), fun _ => ⟨_, ?_, ?_,
        rfl⟩⟩, rfl, Nat.zero_le _, by simp, hsound hrep⟩
      · exact h.inv.sorted_contents.sublist List.filter_sublist
      · intro k r
        rw [h.inv.mem_filter_iff, h.inv.getValue_eq, Option.some_inj, h.held]

/-- **Calls one after another.** -/
theorem Sound.runCalls : ∀ {calls : List (Call (Key E.T.keyCols))} {ops : List (Op (Key E.T.keyCols))} {s : IxIndexHandle}
    {pins : List Pin} {ih : Index.IxIndexHandle (Key E.T.keyCols)} {lv : List (Leaf (Key E.T.keyCols))}
    {lvls : List (List (Inner (Key E.T.keyCols)))}, Sound E ops s pins ih lv lvls →
    (∀ key value, .insert key value ∈ calls → RidOk value) → pins.length + calls.countP Call.isScan + 63 ≤ E.poolSize →
    (∀ ih', runOps (Index.IxIndexHandle.createIndex E.T.btreeOrder) (ops ++ updates calls) = some ih' → ih'.fd2pageno ≤ INT_MAX) →
    ∃ answers s' ih' lv' lvls' lost, runCalls E.T.toNodeLayout (·.1) calls s = (answers, s') ∧
      AllRight E.T.btreeOrder ops calls answers ∧ lost.length = failures answers ∧ (∀ x ∈ lost, x.pid.fd = E.fd) ∧
      Sound E (ops ++ updates calls) s' (lost ++ pins) ih' lv' lvls'
  | [], ops, s, pins, ih, lv, lvls, h, _, _, _ => by
    refine ⟨[], s, ih, lv, lvls, [], rfl, trivial, rfl, by simp, ?_⟩
    rw [updates, List.flatMap_nil, List.append_nil]
    exact h
  | call :: calls, ops, s, pins, ih, lv, lvls, h, hvalues, hroom, hint => by
    have hops : ops ++ updates (call :: calls) = ops ++ call.update ++ updates calls := by
      rw [List.append_assoc]
      rfl
    rw [hops] at hint ⊢
    rw [← List.singleton_append, List.countP_append] at hroom
    obtain ⟨a, s₁, ih₁, lv₁, lvls₁, lost, hout, hright, hlost, hscan, hfd, h₁⟩ := h.step call
      (fun key value hc => hvalues key value (hc ▸ List.mem_cons_self)) (by omega) (h.pages_le hint)
    obtain ⟨answers, s', ih', lv', lvls', lost', hrun, hall, hlost', hfd', h'⟩ := h₁.runCalls
      (fun key value hc => hvalues key value (List.mem_cons_of_mem _ hc)) (by rw [List.length_append]; omega) hint
    refine ⟨a :: answers, s', ih', lv', lvls', lost' ++ lost, ?_, ⟨hright, hall⟩, ?_, ?_, ?_⟩
    · rw [Paged.runCalls, hout]
      dsimp only
      rw [hrun]
    · have hsum : failures (a :: answers) = failures [a] + failures answers := by
        unfold failures
        rw [← List.singleton_append, List.countP_append]
      rw [List.length_append, hlost, hlost', hsum, Nat.add_comm]
    · intro x hx
      rcases List.mem_append.mp hx with hx | hx
      · exact hfd' x hx
      · exact hfd x hx
    · rw [List.append_assoc lost']
      exact h'

/-! ### Opening -/

section Opening

variable {T : TreeLayout} {file : Pages} {tree : Index.IxIndexHandle (Key T.keyCols)} {bpm : BufferPoolManager}
  {contents : PageId → PageData} {fd : ℤ}

/-- **The file of a closed index**: its header, and pages that stand for the nodes of the tree. -/
structure OnDisk (T : TreeLayout) (file : Pages) (ih : Index.IxIndexHandle (Key T.keyCols)) : Prop where
  header : openHdr file = some (ih.fileHdr T.cols)
  nodes : ∀ {p n}, ih.pages p = some n → 1 ≤ p ∧ p < ih.fd2pageno ∧ Stores T ((file p).getD zeros) n
  fresh : ∀ {p}, ih.fd2pageno ≤ p → file p = none
  first : 1 ≤ ih.fd2pageno
  int : ih.fd2pageno ≤ INT_MAX
  count : ih.numPages = ih.fd2pageno
  order : ih.btreeOrder = T.btreeOrder

/-- A file is opened with a descriptor that no page in the pool has. -/
theorem pinned_mounted (h : Pinned bpm contents pins) (hfd : ∀ p f, bpm.pageTable p = some f → p.fd ≠ fd) {count : ℤ}
    (hcount : 0 ≤ count) (file : Pages) :
    Pinned { bpm with
      disk := fun p => if p.fd = fd then file p.pageNo else bpm.disk p
      fd2pageno := Function.update bpm.fd2pageno fd count } (Record.Paged.mounted contents file fd) pins := by
  have hcounters : ∀ x, 0 ≤ Function.update bpm.fd2pageno fd count x := by
    intro x
    by_cases hx : x = fd
    · rw [hx, Function.update_self]
      exact hcount
    · rw [Function.update_of_ne hx]
      exact h.good.counters x
  have hmount := h.remount (fun p => if p.fd = fd then file p.pageNo else bpm.disk p) (fun p f hp => if_neg (hfd p f hp)) hcounters
  have heq : (fun p : PageId => if bpm.pageTable p = none then (if p.fd = fd then file p.pageNo else bpm.disk p).getD zeros
      else contents p) = Record.Paged.mounted contents file fd := by
    funext p
    unfold Record.Paged.mounted
    by_cases hp : p.fd = fd
    · have hnone : bpm.pageTable p = none := Option.eq_none_iff_forall_ne_some.mpr fun f hf => hfd p f hf hp
      rw [if_pos hnone, if_pos hp, if_pos hp]
    · rw [if_neg hp, if_neg hp]
      split
      · exact h.good.gone p ‹_›
      · rfl
  rw [← heq]
  exact hmount

/-- **`open_index`** of the file of an index. -/
theorem OnDisk.openIndex (h : OnDisk T file tree) (hpinned : Pinned bpm contents pins)
    (hfd : ∀ p f, bpm.pageTable p = some f → p.fd ≠ fd) {filePages : ℤ} (hpages : filePages ≤ tree.fd2pageno) :
    ∃ s, openIndex bpm file filePages fd = some s ∧
      Rep ⟨T, fd, bpm.poolSize, Record.Paged.mounted contents file fd⟩ s pins tree := by
  have hnone : ∀ p, bpm.pageTable ⟨fd, p⟩ = none := fun p => Option.eq_none_iff_forall_ne_some.mpr fun f hf => hfd _ f hf rfl
  have hmax : max filePages (tree.fileHdr T.cols).numPages = tree.fd2pageno :=
    (max_eq_right (hpages.trans h.count.ge)).trans h.count
  have hfirst := h.first
  refine ⟨_, by rw [Paged.openIndex, h.header, Option.map_some], _, pinned_mounted hpinned hfd ?_ file, rfl, rfl, fun _ _ => rfl,
    fun {p n} hn => ?_, fun hp => ⟨?_, hnone _, ?_⟩, hnone _, ?_, h.first, h.int, h.count, h.order, rfl, rfl, rfl, rfl⟩
  · rw [hmax]
    omega
  · obtain ⟨hpos, hlt, hs⟩ := h.nodes hn
    refine ⟨hpos, hlt, ?_⟩
    have hpage : Record.Paged.mounted contents file fd ⟨fd, p⟩ = (file p).getD zeros := if_pos rfl
    rw [← hpage] at hs
    exact hs
  · exact (if_pos rfl).trans (congrArg (Option.getD · zeros) (h.fresh hp))
  · exact (if_pos rfl).trans (h.fresh hp)
  · exact (Function.update_self fd _ _).trans hmax

/-- **`create_index`** writes the file of an empty index. -/
theorem createIndex_onDisk (kc : KeyCols) (hcols : kc.cols.length ≤ 507) (htot : colTotLen kc.cols ≤ IX_MAX_COL_LEN) :
    ∃ file, createIndex kc.cols = .ok file ∧
      OnDisk (.create kc htot) file (Index.IxIndexHandle.createIndex (btreeOrderOf (colTotLen kc.cols))) := by
  have htwo : 2 ≤ IX_INIT_ROOT_PAGE ∧ IX_INIT_ROOT_PAGE < IX_INIT_NUM_PAGES := ⟨by decide, by decide⟩
  have hthree : InInt IX_INIT_NUM_PAGES := ⟨by decide, by decide⟩
  have hroot : InInt IX_INIT_ROOT_PAGE := ⟨by decide, by decide⟩
  have hleaf : InInt IX_LEAF_HEADER_PAGE := ⟨by decide, by decide⟩
  have hsame : ReopensSame kc.cols (Index.IxIndexHandle.createIndex (btreeOrderOf (colTotLen kc.cols)) : Index.IxIndexHandle (Key kc)) := by
    refine reopensSame hcols htot rfl rfl hthree ?_
    intro p hp
    have hp' : p = IX_INIT_ROOT_PAGE := by simpa [Index.IxIndexHandle.createIndex] using hp
    rw [hp']
    exact htwo
  have hfirst : 1 ≤ IX_INIT_NUM_PAGES := by decide
  have hint : IX_INIT_NUM_PAGES ≤ INT_MAX := by decide
  refine ⟨_, if_neg (not_lt.mpr htot), ?_, fun {p n} hn => ?_, fun {p} hp => ?_, hfirst, hint, rfl, rfl⟩
  · refine (openHdr_congr ?_).trans (hsame.header fun _ => none)
    rw [Function.update_of_ne (by decide), Function.update_of_ne (by decide)]
    rfl
  · unfold Index.IxIndexHandle.createIndex at hn
    dsimp only at hn
    split at hn
    · obtain rfl := Option.some.inj hn
      subst p
      rw [Function.update_of_ne (by decide), Function.update_self, Option.getD_some]
      exact ⟨le_refl _, show IX_LEAF_HEADER_PAGE < IX_INIT_NUM_PAGES by decide, stores_emptyLeaf hroot⟩
    · split at hn
      · obtain rfl := Option.some.inj hn
        subst p
        rw [Function.update_self, Option.getD_some]
        exact ⟨by decide, htwo.2, stores_emptyLeaf hleaf⟩
      · cases hn
  · have hlt : IX_INIT_NUM_PAGES ≤ p := hp
    unfold IX_INIT_NUM_PAGES at hlt
    rw [Function.update_of_ne (by unfold IX_INIT_ROOT_PAGE; omega), Function.update_of_ne (by unfold IX_LEAF_HEADER_PAGE; omega)]
    exact hsame.created _ p (by unfold IX_FILE_HDR_PAGE; omega)

end Opening

/-- **The index in bytes**: it is created, opened in a pool that others use too, and called. Every call that does not meet a blocked
scan returns what a finite map would; each of those throws, and loses a pin. Pages of other files stay as they are. -/
theorem index_in_bytes (kc : KeyCols) (hcols : kc.cols.length ≤ 507) (htot : colTotLen kc.cols ≤ IX_MAX_COL_LEN)
    {bpm : BufferPoolManager} {contents : PageId → PageData} (hpinned : Pinned bpm contents pins) {fd : ℤ}
    (hfd : ∀ p f, bpm.pageTable p = some f → p.fd ≠ fd) (calls : List (Call (Key kc)))
    (hvalues : ∀ key value, .insert key value ∈ calls → RidOk value)
    (hroom : pins.length + calls.countP Call.isScan + 63 ≤ bpm.poolSize)
    (hint : ∀ ih, runOps (Index.IxIndexHandle.createIndex (btreeOrderOf (colTotLen kc.cols))) (updates calls) = some ih →
      ih.fd2pageno ≤ INT_MAX) :
    ∃ file s answers s' lost contents', createIndex kc.cols = .ok file ∧ openIndex bpm file IX_INIT_NUM_PAGES fd = some s ∧
      runCalls (.create kc.cols htot) (·.1) calls s = (answers, s') ∧ AllRight (btreeOrderOf (colTotLen kc.cols)) [] calls answers ∧
      lost.length = failures answers ∧ (∀ x ∈ lost, x.pid.fd = fd) ∧ Pinned s'.bpm contents' (lost ++ pins) ∧
      ∀ pid : PageId, pid.fd ≠ fd → contents' pid = contents pid := by
  obtain ⟨file, hfile, hdisk⟩ := createIndex_onDisk kc hcols htot
  obtain ⟨s, hopen, hrep⟩ := hdisk.openIndex hpinned hfd (le_refl _)
  obtain ⟨lv, lvls, hbuilt⟩ := built_createIndex kc (btreeOrderOf_fits htot).1
  obtain ⟨answers, s', ih', lv', lvls', lost, hrun, hright, hlost, hlostFd, h'⟩ :=
    Sound.runCalls { hbuilt with rep := hrep } hvalues hroom hint
  obtain ⟨contents', hstands⟩ := h'.rep
  refine ⟨file, s, answers, s', lost, contents', hfile, hopen, hrun, hright, hlost, hlostFd, hstands.pinned, ?_⟩
  intro pid hpid
  exact (hstands.others pid (Or.inl hpid)).trans (if_neg hpid)

/-- A key is inserted, read and scanned. -/
def sevenCalls : List (Call (Key intColumn)) := [.insert keySeven ⟨1, 0⟩, .getValue keySeven, .scan keySeven keySeven]

theorem sevenCalls_ridOk {key : Key intColumn} {value : Rid} (h : .insert key value ∈ sevenCalls) : RidOk value := by
  simp only [sevenCalls, List.mem_cons, Call.insert.injEq, reduceCtorEq, List.not_mem_nil, or_false] at h
  rw [h.2]
  exact ⟨⟨by decide, by decide⟩, ⟨by decide, by decide⟩⟩

theorem sevenCalls_pages : ∀ ih, runOps (Index.IxIndexHandle.createIndex (btreeOrderOf (colTotLen intColumn.cols))) (updates sevenCalls) =
    some ih → ih.fd2pageno ≤ INT_MAX := by
  have hall : (runOps (Index.IxIndexHandle.createIndex (btreeOrderOf (colTotLen intColumn.cols))) (updates sevenCalls)).all
      (fun ih => decide (ih.fd2pageno ≤ INT_MAX)) = true := by decide +kernel
  intro ih hrun
  rw [hrun] at hall
  exact of_decide_eq_true hall

theorem index_in_bytes_seven : ∃ file s answers s' lost contents', createIndex intColumn.cols = .ok file ∧
    openIndex (.create 64 (fun _ => none) fun _ => 0) file IX_INIT_NUM_PAGES 3 = some s ∧
    runCalls (.create intColumn.cols (by decide)) (·.1) sevenCalls s = (answers, s') ∧
    AllRight (btreeOrderOf (colTotLen intColumn.cols)) [] sevenCalls answers ∧ lost.length = failures answers ∧
    (∀ x ∈ lost, x.pid.fd = 3) ∧ Pinned s'.bpm contents' (lost ++ []) ∧ ∀ pid : PageId, pid.fd ≠ 3 → contents' pid = zeros :=
  index_in_bytes intColumn (by decide) (by decide)
    (Idle.pinned (Idle.create (show 0 < 64 by decide) (fun _ => none) fun _ => le_refl 0)) (fun _ _ h => by cases h) sevenCalls
    (fun _ _ h => sevenCalls_ridOk h) (by decide) sevenCalls_pages

end Rmdb.Index.Paged
