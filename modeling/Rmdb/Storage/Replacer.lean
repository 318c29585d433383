import Mathlib.Data.Int.Interval
import Rmdb.Storage.BufferPool

/-!
# The replacer

`LRUReplacer` keeps the frames without a pin in a list, and for each of them the iterator of
its node in a hash map. A node has an address of its own, so that an iterator is an address.

What the replacer is for is said over a history of calls: a frame is unpinned since the call
that unpinned it, if it has been neither pinned nor evicted after it. In every history the
replacer evicts the frame that has been unpinned the longest (`victim_earliest`). The list
that the buffer pool is modelled with is the list of the frames here (`Tracks`).
-/

namespace Rmdb.Storage

/-- `LRUReplacer`. -/
structure LRUReplacer where
  /-- `max_size_`. -/
  maxSize : ℕ
  /-- `LRUlist_`: the address and the frame of each node. -/
  lruList : List (ℕ × ℤ)
  /-- `LRUhash_`: the address of a frame's node. -/
  lruHash : ℤ → Option ℕ
  /-- The address of the next node. -/
  nextNode : ℕ

namespace LRUReplacer

/-- The constructor. -/
def create (numPages : ℕ) : LRUReplacer := ⟨numPages, [], fun _ => none, 0⟩

/-- The frames in the list. -/
def frames (s : LRUReplacer) : List ℤ := s.lruList.map (·.2)

/-- `victim`, whose result pointer may be null. -/
def victim (hasResult : Bool) (s : LRUReplacer) : Option ℤ × LRUReplacer :=
  match hasResult, s.lruList with
  | false, _ | true, [] => (none, s)
  | true, (_, frame) :: rest => (some frame, { s with lruHash := Function.update s.lruHash frame none, lruList := rest })

/-- `pin`. -/
def pin (frame : ℤ) (s : LRUReplacer) : LRUReplacer :=
  if frame < 0 ∨ (s.maxSize : ℤ) ≤ frame then s
  else
    match s.lruHash frame with
    | some it => { s with lruList := s.lruList.eraseP (·.1 = it), lruHash := Function.update s.lruHash frame none }
    | none => s

/-- `unpin`. -/
def unpin (frame : ℤ) (s : LRUReplacer) : LRUReplacer :=
  if frame < 0 ∨ (s.maxSize : ℤ) ≤ frame then s
  else if (s.lruHash frame).isSome ∨ s.maxSize ≤ s.lruList.length then s
  else { s with
    lruList := s.lruList ++ [(s.nextNode, frame)]
    lruHash := Function.update s.lruHash frame (some s.nextNode)
    nextNode := s.nextNode + 1 }

/-- A call. -/
inductive Call where
  /-- `unpin`. -/
  | unpin (frame : ℤ)
  /-- `pin`. -/
  | pin (frame : ℤ)
  /-- `victim`. -/
  | victim (hasResult : Bool)

/-- A call that has been made, with what it has returned. -/
inductive Event where
  /-- A frame is unpinned. -/
  | unpin (frame : ℤ)
  /-- A frame is pinned. -/
  | pin (frame : ℤ)
  /-- A frame is evicted, if there is a result. -/
  | victim (frame : Option ℤ)

/-- One more call; the events are listed with the last first. -/
def step (x : LRUReplacer × List Event) : Call → LRUReplacer × List Event
  | .unpin frame => (x.1.unpin frame, .unpin frame :: x.2)
  | .pin frame => (x.1.pin frame, .pin frame :: x.2)
  | .victim hasResult => ((x.1.victim hasResult).2, .victim (x.1.victim hasResult).1 :: x.2)

/-- A sequence of calls. -/
def run (numPages : ℕ) (calls : List Call) : LRUReplacer × List Event := calls.foldl step (create numPages, [])

/-! ### The policy -/

/-- The number of the call since which a frame has been unpinned, if it is unpinned. -/
def unpinnedSince (frame : ℤ) : List Event → Option ℕ
  | [] => none
  | .unpin frame' :: es => if frame' = frame then (unpinnedSince frame es).or (some es.length) else unpinnedSince frame es
  | .pin frame' :: es => if frame' = frame then none else unpinnedSince frame es
  | .victim frame' :: es => if frame' = some frame then none else unpinnedSince frame es

/-- A frame that the replacer is responsible for. -/
def InRange (numPages : ℕ) (frame : ℤ) : Prop := 0 ≤ frame ∧ frame < numPages

/-- The frame became unpinned before all others that are unpinned. -/
def IsEarliest (numPages : ℕ) (es : List Event) (frame : ℤ) : Prop :=
  InRange numPages frame ∧ ∃ since, unpinnedSince frame es = some since ∧
    ∀ frame' since', InRange numPages frame' → unpinnedSince frame' es = some since' → since ≤ since'

section Policy

variable {frame frame' : ℤ} {es : List Event} {s : LRUReplacer} {n : ℕ}

theorem unpinnedSince_lt : ∀ {es : List Event} {since : ℕ}, unpinnedSince frame es = some since → since < es.length
  | [], _, h => nomatch h
  | .unpin frame' :: es, since, h => by
    rw [unpinnedSince] at h
    split_ifs at h with heq
    · rcases hsince : unpinnedSince frame es with _ | since'
      · rw [hsince, Option.none_or] at h
        obtain rfl := Option.some.inj h
        exact Nat.lt_succ_self _
      · rw [hsince, Option.some_or] at h
        obtain rfl := Option.some.inj h
        exact Nat.lt_succ_of_lt (unpinnedSince_lt hsince)
    · exact Nat.lt_succ_of_lt (unpinnedSince_lt h)
  | .pin frame' :: es, since, h => by
    rw [unpinnedSince] at h
    split_ifs at h
    exact Nat.lt_succ_of_lt (unpinnedSince_lt h)
  | .victim frame' :: es, since, h => by
    rw [unpinnedSince] at h
    split_ifs at h
    exact Nat.lt_succ_of_lt (unpinnedSince_lt h)

theorem victim_nil (h : s.lruList = []) : s.victim true = (none, s) := by
  rw [victim.eq_def, h]

theorem victim_cons {it : ℕ} {rest : List (ℕ × ℤ)} (h : s.lruList = (it, frame) :: rest) :
    s.victim true = (some frame, { s with lruHash := Function.update s.lruHash frame none, lruList := rest }) := by
  rw [victim.eq_def, h]

/-! ### The invariant -/

/-- The hash map and the list fit together, and the list has the unpinned frames in the order in which they became so. -/
structure Inv (s : LRUReplacer) (es : List Event) : Prop where
  nodes : (s.lruList.map (·.1)).Nodup
  next : ∀ node ∈ s.lruList, node.1 < s.nextNode
  hash : ∀ frame it, s.lruHash frame = some it ↔ (it, frame) ∈ s.lruList
  mem : ∀ frame, frame ∈ s.frames ↔ InRange s.maxSize frame ∧ (unpinnedSince frame es).isSome
  sorted : s.frames.Pairwise fun frame frame' => ∀ since ∈ unpinnedSince frame es, ∀ since' ∈ unpinnedSince frame' es, since < since'

/-- There are no more frames in a range than its length. -/
theorem length_le_of_inRange {frames : List ℤ} (hnodup : frames.Nodup) (hrange : ∀ frame ∈ frames, InRange n frame) :
    frames.length ≤ n := by
  have hsub : frames.toFinset ⊆ Finset.Ico 0 (n : ℤ) := fun frame hframe =>
    Finset.mem_Ico.mpr (hrange frame (List.mem_toFinset.mp hframe))
  have hcard := Finset.card_le_card hsub
  rw [List.toFinset_card_of_nodup hnodup, Int.card_Ico] at hcard
  omega

theorem mem_frames : frame ∈ s.frames ↔ ∃ it, (it, frame) ∈ s.lruList := by
  rw [frames, List.mem_map]
  constructor
  · rintro ⟨⟨it, _⟩, hmem, rfl⟩
    exact ⟨it, hmem⟩
  · rintro ⟨it, hmem⟩
    exact ⟨_, hmem, rfl⟩

namespace Inv

variable (h : Inv s es)
include h

theorem isSome_hash (frame : ℤ) : (s.lruHash frame).isSome ↔ frame ∈ s.frames := by
  rw [Option.isSome_iff_exists, mem_frames]
  exact exists_congr fun it => h.hash frame it

/-- A frame is in the list once. -/
theorem nodup : s.frames.Nodup := by
  refine h.sorted.imp_of_mem fun {frame frame'} hmem _ hlt => ?_
  rintro rfl
  obtain ⟨since, hsince⟩ := Option.isSome_iff_exists.mp ((h.mem frame).mp hmem).2
  exact absurd (hlt since hsince since hsince) (lt_irrefl _)

theorem inRange (hmem : frame ∈ s.frames) : InRange s.maxSize frame := ((h.mem frame).mp hmem).1

/-- **The list is never too long**: its frames are different frames of the pool. -/
theorem length_le : s.lruList.length ≤ s.maxSize := by
  have hle := length_le_of_inRange h.nodup fun _ => h.inRange
  rwa [frames, List.length_map] at hle

/-- There is room for a frame that is not in the list. -/
theorem length_lt (hframe : InRange s.maxSize frame) (hnot : frame ∉ s.frames) : s.lruList.length < s.maxSize := by
  have hle := length_le_of_inRange (List.nodup_cons.mpr ⟨hnot, h.nodup⟩)
    (List.forall_mem_cons.mpr ⟨hframe, fun _ => h.inRange⟩)
  rwa [List.length_cons, frames, List.length_map] at hle

/-- The list without a frame is the list without its node. -/
theorem filter_eq {A B : List (ℕ × ℤ)} {it : ℕ} (hl : s.lruList = A ++ (it, frame) :: B) :
    s.lruList.filter (·.2 ≠ frame) = A ++ B := by
  have hnodup := h.nodup
  rw [frames, hl, List.map_append, List.map_cons, List.nodup_middle, List.nodup_cons, ← List.map_append] at hnodup
  have hne : ∀ node ∈ A ++ B, decide (node.2 ≠ frame) = true := fun node hnode =>
    decide_eq_true fun heq => hnodup.1 (List.mem_map.mpr ⟨node, hnode, heq⟩)
  rw [hl, List.filter_append, List.filter_cons_of_neg (by simp), ← List.filter_append, List.filter_eq_self.mpr hne]

/-- The node at a frame's iterator is the one with the frame. -/
theorem eraseP_eq {it : ℕ} (hit : s.lruHash frame = some it) :
    s.lruList.eraseP (·.1 = it) = s.lruList.filter (·.2 ≠ frame) := by
  obtain ⟨A, B, hl⟩ := List.append_of_mem ((h.hash frame it).mp hit)
  have hnodes := h.nodes
  rw [hl, List.map_append, List.map_cons, List.nodup_middle, List.nodup_cons, List.mem_append, not_or] at hnodes
  have hA : ∀ node ∈ A, ¬ decide (node.1 = it) = true := fun node hnode heq =>
    hnodes.1.1 (List.mem_map.mpr ⟨node, hnode, of_decide_eq_true heq⟩)
  rw [h.filter_eq hl, hl, List.eraseP_append_right _ hA, List.eraseP_cons_of_pos (by simp)]

/-! ### The calls -/

/-- An event that is about no frame of the list, and unpins none that could be in it. -/
theorem ignore {e : Event} (hsame : ∀ frame, InRange s.maxSize frame → unpinnedSince frame (e :: es) = unpinnedSince frame es) :
    Inv s (e :: es) := by
  refine ⟨h.nodes, h.next, h.hash, fun frame => ?_, h.sorted.imp_of_mem fun hframe hframe' hlt => ?_⟩
  · rw [h.mem]
    exact and_congr_right fun hrange => by rw [hsame frame hrange]
  · rwa [hsame _ (h.inRange hframe), hsame _ (h.inRange hframe')]

/-- A frame leaves the list. -/
theorem remove {e : Event} {l : List (ℕ × ℤ)} (hl : l = s.lruList.filter (·.2 ≠ frame))
    (hnone : unpinnedSince frame (e :: es) = none)
    (hsame : ∀ frame', frame' ≠ frame → unpinnedSince frame' (e :: es) = unpinnedSince frame' es) :
    Inv { s with lruList := l, lruHash := Function.update s.lruHash frame none } (e :: es) := by
  subst hl
  have hframes : (s.lruList.filter (·.2 ≠ frame)).map (·.2) = s.frames.filter (· ≠ frame) := by
    rw [frames, List.filter_map]
    rfl
  refine ⟨h.nodes.sublist (List.Sublist.map _ List.filter_sublist), fun node hnode => h.next node (List.mem_of_mem_filter hnode),
    ?_, ?_, ?_⟩
  · intro frame' it
    change Function.update s.lruHash frame none frame' = some it ↔ (it, frame') ∈ s.lruList.filter (·.2 ≠ frame)
    rw [Function.update_apply, List.mem_filter]
    split_ifs with heq
    · exact iff_of_false nofun fun hmem => absurd heq (of_decide_eq_true hmem.2)
    · rw [h.hash]
      exact (and_iff_left (decide_eq_true heq)).symm
  · intro frame'
    change frame' ∈ List.map (·.2) (s.lruList.filter (·.2 ≠ frame)) ↔ _
    rw [hframes, List.mem_filter, h.mem]
    by_cases heq : frame' = frame
    · subst heq
      rw [hnone]
      exact iff_of_false (fun hmem => absurd rfl (of_decide_eq_true hmem.2)) fun hmem => absurd hmem.2 nofun
    · rw [hsame frame' heq]
      exact and_iff_left (decide_eq_true heq)
  · change List.Pairwise _ (List.map (·.2) (s.lruList.filter (·.2 ≠ frame)))
    rw [hframes]
    refine (h.sorted.filter _).imp_of_mem fun {a b} ha hb hlt => ?_
    have hne : ∀ {c}, c ∈ s.frames.filter (· ≠ frame) → c ≠ frame := fun hc => of_decide_eq_true (List.mem_filter.mp hc).2
    rwa [hsame a (hne ha), hsame b (hne hb)]

/-- **`unpin`** keeps the invariant. -/
theorem unpin (frame : ℤ) : Inv (s.unpin frame) (.unpin frame :: es) := by
  have hother : ∀ {frame'}, frame' ≠ frame → unpinnedSince frame' (.unpin frame :: es) = unpinnedSince frame' es :=
    fun hne => by rw [unpinnedSince, if_neg hne.symm]
  rw [LRUReplacer.unpin]
  split_ifs with hrange hguard
  · refine h.ignore fun frame' hframe' => hother ?_
    rintro rfl
    obtain ⟨hpos, hlt⟩ := hframe'
    omega
  · -- the second guard is about the first: a frame that is not in the list finds room there
    have hin : InRange s.maxSize frame := ⟨by omega, by omega⟩
    have hmem : frame ∈ s.frames := by
      by_contra hnot
      rcases hguard with hsome | hfull
      · exact hnot ((h.isSome_hash frame).mp hsome)
      · exact absurd (h.length_lt hin hnot) (not_lt.mpr hfull)
    refine h.ignore ?_
    intro frame' _
    by_cases heq : frame' = frame
    · obtain ⟨since, hsince⟩ := Option.isSome_iff_exists.mp ((h.mem frame).mp hmem).2
      rw [heq, unpinnedSince, if_pos rfl, hsince, Option.some_or]
    · exact hother heq
  · have hin : InRange s.maxSize frame := ⟨by omega, by omega⟩
    have hnot : frame ∉ s.frames := fun hmem => hguard (Or.inl ((h.isSome_hash frame).mpr hmem))
    have hnone : unpinnedSince frame es = none := by
      rw [← Option.not_isSome_iff_eq_none]
      exact fun hsome => hnot ((h.mem frame).mpr ⟨hin, hsome⟩)
    have hnew : unpinnedSince frame (.unpin frame :: es) = some es.length := by
      rw [unpinnedSince, if_pos rfl, hnone, Option.none_or]
    have hne : ∀ {frame'}, frame' ∈ s.frames → frame' ≠ frame := fun hmem heq => hnot (heq ▸ hmem)
    refine ⟨?_, ?_, ?_, ?_, ?_⟩
    · rw [List.map_append, List.map_singleton, List.nodup_append]
      refine ⟨h.nodes, List.nodup_singleton _, ?_⟩
      intro it hit it' hit'
      obtain ⟨node, hnode, rfl⟩ := List.mem_map.mp hit
      obtain rfl := List.mem_singleton.mp hit'
      exact ne_of_lt (h.next node hnode)
    · intro node hnode
      rcases List.mem_append.mp hnode with hnode | hnode
      · exact Nat.lt_succ_of_lt (h.next node hnode)
      · obtain rfl := List.mem_singleton.mp hnode
        exact Nat.lt_succ_self _
    · intro frame' it
      change Function.update s.lruHash frame (some s.nextNode) frame' = some it ↔ (it, frame') ∈ s.lruList ++ [(s.nextNode, frame)]
      rw [Function.update_apply, List.mem_append, List.mem_singleton, Prod.mk.injEq]
      split_ifs with heq
      · subst heq
        have hold : (it, frame') ∉ s.lruList := fun hmem => hnot (mem_frames.mpr ⟨it, hmem⟩)
        rw [Option.some.injEq]
        exact ⟨fun hit => Or.inr ⟨hit.symm, rfl⟩, fun hor => (hor.resolve_left hold).1.symm⟩
      · rw [h.hash]
        exact ⟨Or.inl, fun hor => hor.resolve_right fun hand => heq hand.2⟩
    · intro frame'
      change frame' ∈ List.map (·.2) (s.lruList ++ [(s.nextNode, frame)]) ↔ _
      rw [List.map_append, List.map_singleton, List.mem_append, List.mem_singleton]
      change frame' ∈ s.frames ∨ frame' = frame ↔ _
      by_cases heq : frame' = frame
      · subst heq
        rw [hnew]
        exact iff_of_true (Or.inr rfl) ⟨hin, rfl⟩
      · rw [hother heq, h.mem]
        exact or_iff_left heq
    · change List.Pairwise _ (List.map (·.2) (s.lruList ++ [(s.nextNode, frame)]))
      rw [List.map_append, List.map_singleton, List.pairwise_append]
      refine ⟨h.sorted.imp_of_mem fun ha hb hlt => ?_, List.pairwise_singleton _ _, fun a ha b hb since hsince since' hsince' => ?_⟩
      · rwa [hother (hne ha), hother (hne hb)]
      · obtain rfl := List.mem_singleton.mp hb
        rw [hother (hne ha)] at hsince
        rw [hnew] at hsince'
        obtain rfl := Option.some.inj hsince'
        exact unpinnedSince_lt hsince

/-- **`pin`** keeps the invariant. -/
theorem pin (frame : ℤ) : Inv (s.pin frame) (.pin frame :: es) := by
  have hother : ∀ {frame'}, frame' ≠ frame → unpinnedSince frame' (.pin frame :: es) = unpinnedSince frame' es :=
    fun hne => by rw [unpinnedSince, if_neg hne.symm]
  rw [LRUReplacer.pin]
  split_ifs with hrange
  · refine h.ignore fun frame' hframe' => hother ?_
    rintro rfl
    obtain ⟨hpos, hlt⟩ := hframe'
    omega
  · have hin : InRange s.maxSize frame := ⟨by omega, by omega⟩
    split
    next it hit =>
      exact h.remove (h.eraseP_eq hit) (by rw [unpinnedSince, if_pos rfl]) fun _ => hother
    next hnone =>
      have hnot : ¬ (unpinnedSince frame es).isSome := fun hsome => by
        have hmem := (h.isSome_hash frame).mpr ((h.mem frame).mpr ⟨hin, hsome⟩)
        rw [hnone] at hmem
        cases hmem
      refine h.ignore ?_
      intro frame' _
      by_cases heq : frame' = frame
      · rw [heq, unpinnedSince, if_pos rfl, Option.not_isSome_iff_eq_none.mp hnot]
      · exact hother heq

/-- **`victim`** keeps the invariant. -/
theorem victim (hasResult : Bool) : Inv (s.victim hasResult).2 (.victim (s.victim hasResult).1 :: es) := by
  have hnone : Inv s (.victim none :: es) := h.ignore fun frame' _ => by rw [unpinnedSince, if_neg nofun]
  cases hasResult with
  | false => exact hnone
  | true =>
    rcases hlist : s.lruList with _ | ⟨⟨it, frame⟩, rest⟩
    · rwa [victim_nil hlist]
    · rw [victim_cons hlist]
      refine h.remove (h.filter_eq (A := []) hlist).symm (by rw [unpinnedSince, if_pos rfl]) ?_
      intro frame' hne
      rw [unpinnedSince, if_neg]
      exact fun heq => hne (Option.some.inj heq).symm

/-- **What `victim` returns**: the frame that became unpinned earliest. -/
theorem victim_earliest (frame : ℤ) : (s.victim true).1 = some frame ↔ IsEarliest s.maxSize es frame := by
  rcases hlist : s.lruList with _ | ⟨⟨it, first⟩, rest⟩
  · have hnot : ∀ frame, frame ∉ s.frames := fun frame hmem => by
      rw [frames, hlist] at hmem
      cases hmem
    rw [victim_nil hlist]
    refine iff_of_false nofun ?_
    rintro ⟨hrange, since, hsince, -⟩
    exact hnot frame ((h.mem frame).mpr ⟨hrange, Option.isSome_iff_exists.mpr ⟨since, hsince⟩⟩)
  · rw [victim_cons hlist, Option.some.injEq]
    have hframes : s.frames = first :: rest.map (·.2) := by
      rw [frames, hlist]
      rfl
    have hsorted := h.sorted
    rw [hframes, List.pairwise_cons] at hsorted
    obtain ⟨hrange, hsome⟩ := (h.mem first).mp (by rw [hframes]; exact List.mem_cons_self)
    obtain ⟨since, hsince⟩ := Option.isSome_iff_exists.mp hsome
    -- every other frame that is unpinned comes later
    have hlater : ∀ frame' since', InRange s.maxSize frame' → unpinnedSince frame' es = some since' →
        frame' = first ∨ since < since' := fun frame' since' hrange' hsince' => by
      have hmem := (h.mem frame').mpr ⟨hrange', Option.isSome_iff_exists.mpr ⟨since', hsince'⟩⟩
      rw [hframes, List.mem_cons] at hmem
      exact hmem.imp_right fun hrest => hsorted.1 frame' hrest since hsince since' hsince'
    constructor
    · rintro rfl
      refine ⟨hrange, since, hsince, ?_⟩
      intro frame' since' hrange' hsince'
      rcases hlater frame' since' hrange' hsince' with rfl | hlt
      · exact le_of_eq (Option.some.inj (hsince.symm.trans hsince'))
      · exact le_of_lt hlt
    · rintro ⟨hrange', since', hsince', hleast⟩
      rcases hlater frame since' hrange' hsince' with heq | hlt
      · exact heq.symm
      · exact absurd (hleast first since hrange hsince) (not_le.mpr hlt)

/-- `victim` fails if no frame is unpinned. -/
theorem victim_none : (s.victim true).1 = none ↔ ∀ frame, InRange s.maxSize frame → unpinnedSince frame es = none := by
  have hempty : (s.victim true).1 = none ↔ s.frames = [] := by
    rcases hlist : s.lruList with _ | ⟨⟨it, first⟩, rest⟩
    · rw [victim_nil hlist, frames, hlist]
      exact iff_of_true rfl rfl
    · rw [victim_cons hlist, frames, hlist]
      exact iff_of_false nofun nofun
  rw [hempty, List.eq_nil_iff_forall_not_mem]
  refine forall_congr' ?_
  intro frame
  rw [h.mem, not_and]
  exact imp_congr_right fun _ => Option.not_isSome_iff_eq_none

end Inv

/-! ### Sequences of calls -/

theorem create_inv (numPages : ℕ) : Inv (create numPages) [] :=
  ⟨List.nodup_nil, fun _ h => absurd h List.not_mem_nil, fun _ _ => iff_of_false nofun nofun,
    fun _ => iff_of_false nofun fun h => (nomatch h.2), List.Pairwise.nil⟩

theorem step_inv {x : LRUReplacer × List Event} (h : Inv x.1 x.2) (call : Call) :
    Inv (step x call).1 (step x call).2 := by
  cases call with
  | unpin frame => exact h.unpin frame
  | pin frame => exact h.pin frame
  | victim hasResult => exact h.victim hasResult

theorem step_maxSize (x : LRUReplacer × List Event) (call : Call) : (step x call).1.maxSize = x.1.maxSize := by
  cases call with
  | unpin frame =>
    change (LRUReplacer.unpin frame x.1).maxSize = x.1.maxSize
    rw [LRUReplacer.unpin]
    split_ifs <;> rfl
  | pin frame =>
    change (LRUReplacer.pin frame x.1).maxSize = x.1.maxSize
    rw [LRUReplacer.pin]
    split_ifs
    · rfl
    · split <;> rfl
  | victim hasResult =>
    change (LRUReplacer.victim hasResult x.1).2.maxSize = x.1.maxSize
    rw [victim.eq_def]
    split <;> rfl

theorem run_inv (numPages : ℕ) (calls : List Call) :
    Inv (run numPages calls).1 (run numPages calls).2 ∧ (run numPages calls).1.maxSize = numPages := by
  induction calls using List.reverseRecOn with
  | nil => exact ⟨create_inv numPages, rfl⟩
  | append_singleton calls call ih =>
    rw [run, List.foldl_concat]
    exact ⟨step_inv ih.1 call, (step_maxSize _ call).trans ih.2⟩

end Policy

/-- **The replacer follows its policy** in every sequence of calls: the list has no frame twice, the hash map has the iterators
of its nodes, it is never longer than `max_size_`, and `victim` returns the frame that became unpinned earliest, if any is
unpinned. -/
theorem lru_policy (numPages : ℕ) (calls : List Call) :
    let s := (run numPages calls).1
    let es := (run numPages calls).2
    s.frames.Nodup ∧ (s.lruList.map (·.1)).Nodup ∧
    (∀ frame it, s.lruHash frame = some it ↔ (it, frame) ∈ s.lruList) ∧
    (∀ frame, (s.lruHash frame).isSome ↔ frame ∈ s.frames) ∧
    s.lruList.length ≤ numPages ∧
    (∀ frame, (s.victim true).1 = some frame ↔ IsEarliest numPages es frame) ∧
    ((s.victim true).1 = none ↔ ∀ frame, InRange numPages frame → unpinnedSince frame es = none) := by
  obtain ⟨h, hsize⟩ := run_inv numPages calls
  have hle := h.length_le
  have hearliest := h.victim_earliest
  have hnone := h.victim_none
  rw [hsize] at hle hearliest hnone
  exact ⟨h.nodup, h.nodes, h.hash, h.isSome_hash, hle, hearliest, hnone⟩

/-! ### The buffer pool's replacer -/

/-- The buffer pool's list is that of the replacer. -/
structure Tracks (s : LRUReplacer) (bpm : BufferPoolManager) : Prop where
  size : s.maxSize = bpm.poolSize
  list : s.frames = bpm.lruList.map Nat.cast

section Pool

variable {s : LRUReplacer} {es : List Event} {bpm : BufferPoolManager}

theorem Tracks.mem (ht : Tracks s bpm) (frame : ℕ) : (frame : ℤ) ∈ s.frames ↔ frame ∈ bpm.lruList := by
  rw [ht.list, List.mem_map]
  constructor
  · rintro ⟨frame', hmem, heq⟩
    exact Nat.cast_injective heq ▸ hmem
  · exact fun hmem => ⟨frame, hmem, rfl⟩

theorem Tracks.length (ht : Tracks s bpm) : s.lruList.length = bpm.lruList.length := by
  have hlen := congrArg List.length ht.list
  rwa [frames, List.length_map, List.length_map] at hlen

theorem tracks_create (poolSize : ℕ) (disk : PageId → Option PageData) (fd2pageno : ℤ → ℤ) :
    Tracks (create poolSize) (.create poolSize disk fd2pageno) := ⟨rfl, rfl⟩

/-- `unpin` of the replacer is that of the pool. -/
theorem Tracks.unpin (ht : Tracks s bpm) (h : Inv s es) (frame : ℕ) : Tracks (s.unpin frame) (bpm.unpin frame) := by
  have hguard : ((s.lruHash frame).isSome ∨ s.maxSize ≤ s.lruList.length) ↔
      (frame ∈ bpm.lruList ∨ bpm.poolSize ≤ bpm.lruList.length) := by
    rw [h.isSome_hash, ht.mem, ht.size, ht.length]
  have hrange : ((frame : ℤ) < 0 ∨ (s.maxSize : ℤ) ≤ frame) ↔ bpm.poolSize ≤ frame := by
    rw [ht.size]
    omega
  rw [LRUReplacer.unpin, BufferPoolManager.unpin, if_congr hrange rfl rfl, if_congr hguard rfl rfl]
  split_ifs
  · exact ht
  · exact ht
  · refine ⟨ht.size, ?_⟩
    change List.map (·.2) (s.lruList ++ [(s.nextNode, (frame : ℤ))]) = List.map Nat.cast (bpm.lruList ++ [frame])
    rw [List.map_append, List.map_append, ← ht.list]
    rfl

/-- `pin` of the replacer is that of the pool. -/
theorem Tracks.pin (ht : Tracks s bpm) (h : Inv s es) (frame : ℕ) : Tracks (s.pin frame) (bpm.pin frame) := by
  have hrange : ((frame : ℤ) < 0 ∨ (s.maxSize : ℤ) ≤ frame) ↔ bpm.poolSize ≤ frame := by
    rw [ht.size]
    omega
  rw [LRUReplacer.pin, BufferPoolManager.pin, if_congr hrange rfl rfl]
  split_ifs
  · exact ht
  · split
    next it hit =>
      refine ⟨ht.size, ?_⟩
      change List.map (·.2) (s.lruList.eraseP (·.1 = it)) = List.map Nat.cast (bpm.lruList.erase frame)
      rw [h.eraseP_eq hit, List.map_erase Nat.cast_injective, ← ht.list, h.nodup.erase_eq_filter, frames, List.filter_map]
      have hfun : ((· != (frame : ℤ)) ∘ fun node : ℕ × ℤ => node.2) = fun node => decide (node.2 ≠ (frame : ℤ)) :=
        funext fun node => by simp [bne, beq_eq_decide]
      rw [hfun]
    next hnone =>
      have hnot : frame ∉ bpm.lruList := by
        rw [← ht.mem, ← h.isSome_hash, hnone]
        exact nofun
      refine ⟨ht.size, ?_⟩
      change s.frames = List.map Nat.cast (bpm.lruList.erase frame)
      rw [List.erase_of_not_mem hnot, ht.list]

/-- The pool asks the replacer if no frame is free. -/
theorem Tracks.victim (ht : Tracks s bpm) (hfree : bpm.freeList = []) :
    (s.victim true).1 = bpm.findVictimPage.map (fun out => (out.2 : ℤ)) ∧
    ∀ out, bpm.findVictimPage = some out → Tracks (s.victim true).2 out.1 := by
  have hlist := ht.list
  rcases hs : s.lruList with _ | ⟨⟨it, first⟩, rest⟩
  · rw [frames, hs] at hlist
    have hnil : bpm.lruList = [] := List.map_eq_nil_iff.mp hlist.symm
    rw [victim_nil hs, BufferPoolManager.findVictimPage, hfree, hnil]
    exact ⟨rfl, nofun⟩
  · rw [frames, hs, List.map_cons] at hlist
    rcases hpool : bpm.lruList with _ | ⟨frame, pool⟩
    · rw [hpool] at hlist
      cases hlist
    · rw [hpool, List.map_cons, List.cons.injEq] at hlist
      rw [victim_cons hs, BufferPoolManager.findVictimPage, hfree, hpool]
      refine ⟨congrArg some hlist.1, ?_⟩
      intro out hout
      obtain rfl := Option.some.inj hout
      exact ⟨ht.size, hlist.2⟩

end Pool

end LRUReplacer

end Rmdb.Storage
