import Mathlib.Data.Set.Insert
import Mathlib.Logic.Function.Basic
import Mathlib.Logic.Relation
import Mathlib.Order.Lattice

/-!
# Programs on shared objects

A program acquires named objects, looks at them and changes them, one access at a time; between
two accesses others may do something. A stream only looks, and produces rows on the way.

What a program does alone is told step by step (`SoloStep`), where the objects that it touches
are among those it holds, and as a function (`Prog.run`). A step that touches only what is held
is the same step whatever the other objects are (`Solo.frame`). A program that is `Guarded`
looks at no object before it has acquired it, and changes none before it has acquired it
exclusively.
-/

namespace Rmdb.Lib

open Function (update)

/-- A stream of rows that are read from objects. -/
inductive Stream (K V R : Type) where
  /-- There are no more rows. -/
  | done
  /-- An error. -/
  | fail
  /-- A row, and those behind it. -/
  | yield (r : R) (rest : Stream K V R)
  /-- An access to an object. -/
  | look (k : K) (rest : V → Stream K V R)

/-- A program over objects `V` with names `K`, which it changes by operations `O`, and which returns an `R`. -/
inductive Prog (K V O R : Type) where
  /-- The program returns. -/
  | ret (r : R)
  /-- An error. -/
  | fail
  /-- An object is acquired, exclusively or not. -/
  | acquire (k : K) (exclusive : Bool) (rest : Prog K V O R)
  /-- An access to an object. -/
  | look (k : K) (rest : V → Prog K V O R)
  /-- An object is changed. -/
  | write (k : K) (op : O) (rest : Prog K V O R)

variable {K V O R R' W : Type}

namespace Stream

/-- Go on with a result, if there is one. -/
def attempt {E A : Type} : Except E A → (A → Stream K V R) → Stream K V R
  | .error _, _ => fail
  | .ok a, rest => rest a

/-- Some rows, and those behind them. -/
def yieldAll : List R → Stream K V R → Stream K V R
  | [], rest => rest
  | r :: rows, rest => yield r (yieldAll rows rest)

/-- The rows, one after the other, each changed by a program of its own. -/
def bindRows (g : R → Stream K V R' → Stream K V R') : Stream K V R → Stream K V R'
  | done => done
  | fail => fail
  | yield r rest => g r (bindRows g rest)
  | look k rest => look k fun v => bindRows g (rest v)

/-- All rows, on objects that do not change. -/
def run (objects : K → Option V) : Stream K V R → Option (List R)
  | done => some []
  | fail => none
  | yield r rest => (run objects rest).map (r :: ·)
  | look k rest =>
    match objects k with
    | none => none
    | some v => run objects (rest v)

/-- The program that takes all rows, behind some others, and goes on with them. -/
def collect (next : List R → Prog K V O R') : List R → Stream K V R → Prog K V O R'
  | rows, done => next rows
  | _, fail => .fail
  | rows, yield r rest => collect next (rows ++ [r]) rest
  | rows, look k rest => .look k fun v => collect next rows (rest v)

/-- The stream looks at these objects only. -/
def Within (H : Set K) : Stream K V R → Prop
  | done | fail => True
  | yield _ rest => Within H rest
  | look k rest => k ∈ H ∧ ∀ v, Within H (rest v)

theorem Within.look {H : Set K} {k : K} {rest : V → Stream K V R} (hk : k ∈ H) (h : ∀ v, (rest v).Within H) :
    (Stream.look k rest).Within H := ⟨hk, h⟩

theorem Within.attempt {E A : Type} {H : Set K} {rest : A → Stream K V R} (h : ∀ a, (rest a).Within H) :
    ∀ e : Except E A, (Stream.attempt e rest).Within H
  | .error _ => trivial
  | .ok a => h a

theorem Within.yieldAll {H : Set K} {rest : Stream K V R} (h : rest.Within H) : ∀ rows : List R, (yieldAll rows rest).Within H
  | [] => h
  | _ :: rows => Within.yieldAll h rows

theorem Within.bindRows {H : Set K} {g : R → Stream K V R' → Stream K V R'}
    (hg : ∀ r rest, rest.Within H → (g r rest).Within H) : ∀ {s : Stream K V R}, s.Within H → (s.bindRows g).Within H
  | done, _ => trivial
  | fail, _ => trivial
  | yield r rest, h => hg r _ (Within.bindRows hg (s := rest) h)
  | .look _ rest, h => ⟨h.1, fun v => Within.bindRows hg (s := rest v) (h.2 v)⟩

end Stream

namespace Prog

/-- Go on with a result, if there is one. -/
def attempt {E A : Type} : Except E A → (A → Prog K V O R) → Prog K V O R
  | .error _, _ => fail
  | .ok a, rest => rest a

/-- Acquire some objects, one after the other. -/
def acquireAll : List K → Prog K V O R → Prog K V O R
  | [], rest => rest
  | k :: ks, rest => .acquire k false (acquireAll ks rest)

/-- Some changes of one object, one after the other. -/
def writeAll (k : K) : List O → Prog K V O R → Prog K V O R
  | [], rest => rest
  | op :: ops, rest => .write k op (writeAll k ops rest)

/-- With `rd` held, and `wr` exclusively, the program looks only at what it holds and changes only what it holds
exclusively. -/
def Guarded : Set K → Set K → Prog K V O R → Prop
  | _, _, ret _ | _, _, fail => True
  | rd, wr, acquire k exclusive rest => Guarded (insert k rd) (if exclusive then insert k wr else wr) rest
  | rd, wr, look k rest => k ∈ rd ∧ ∀ v, Guarded rd wr (rest v)
  | rd, wr, write k _ rest => k ∈ wr ∧ Guarded rd wr rest

theorem Guarded.mono : ∀ {p : Prog K V O R} {rd rd' wr wr' : Set K}, rd ⊆ rd' → wr ⊆ wr' → p.Guarded rd wr →
    p.Guarded rd' wr'
  | ret _, _, _, _, _, _, _, _ => trivial
  | fail, _, _, _, _, _, _, _ => trivial
  | acquire k exclusive rest, rd, rd', wr, wr', hrd, hwr, h => by
    refine Guarded.mono (p := rest) (Set.insert_subset_insert hrd) ?_ h
    split_ifs
    · exact Set.insert_subset_insert hwr
    · exact hwr
  | look k rest, _, _, _, _, hrd, hwr, h => ⟨hrd h.1, fun v => (h.2 v).mono hrd hwr⟩
  | write k op rest, _, _, _, _, hrd, hwr, h => ⟨hwr h.1, h.2.mono hrd hwr⟩

theorem guarded_ret (rd wr : Set K) (r : R) : (ret r : Prog K V O R).Guarded rd wr := trivial

theorem guarded_acquireAll {rest : Prog K V O R} : ∀ {l : List K} {rd wr : Set K},
    rest.Guarded (rd ∪ {k | k ∈ l}) wr → (acquireAll l rest).Guarded rd wr
  | [], rd, wr, h => h.mono (fun _ hx => hx.resolve_right List.not_mem_nil) subset_rfl
  | k :: l, rd, wr, h => by
    refine guarded_acquireAll (l := l) ?_
    refine h.mono ?_ subset_rfl
    intro x hx
    rcases hx with hx | hx
    · exact Or.inl (Set.mem_insert_of_mem _ hx)
    · rcases List.mem_cons.mp hx with rfl | hx
      · exact Or.inl (Set.mem_insert ..)
      · exact Or.inr hx

theorem guarded_writeAll {rest : Prog K V O R} {k : K} {rd wr : Set K} (hk : k ∈ wr) (h : rest.Guarded rd wr) :
    ∀ ops : List O, (writeAll k ops rest).Guarded rd wr
  | [] => h
  | _ :: ops => ⟨hk, guarded_writeAll hk h ops⟩

end Prog

theorem Stream.Within.guarded {next : List R → Prog K V O R'} {rd wr : Set K} (hnext : ∀ rows, (next rows).Guarded rd wr) :
    ∀ {s : Stream K V R} {rows : List R}, s.Within rd → (s.collect next rows).Guarded rd wr
  | .done, rows, _ => hnext rows
  | .fail, _, _ => trivial
  | .yield _ rest, _, h => Stream.Within.guarded hnext (s := rest) h
  | .look _ rest, _, h => ⟨h.1, fun v => Stream.Within.guarded hnext (s := rest v) (h.2 v)⟩

/-! ### A program alone -/

section Alone

variable (apply : O → V → W → Option (V × W))

/-- What a program returns alone, with the objects and the record `W` of its changes afterwards. -/
def Prog.run [DecidableEq K] : Prog K V O R → (K → Option V) → W → Option (R × (K → Option V) × W)
  | .ret r, objects, w => some (r, objects, w)
  | .fail, _, _ => none
  | .acquire _ _ rest, objects, w => rest.run objects w
  | .look k rest, objects, w =>
    match objects k with
    | none => none
    | some v => (rest v).run objects w
  | .write k op rest, objects, w =>
    match objects k with
    | none => none
    | some v =>
      match apply op v w with
      | none => none
      | some (v', w') => rest.run (update objects k (some v')) w'

/-- A program that has got somewhere. -/
structure Config (K V O R W : Type) where
  /-- What it has still to do. -/
  prog : Prog K V O R
  /-- The objects. -/
  objects : K → Option V
  /-- The record of its changes. -/
  written : W

variable [DecidableEq K] (rd wr : Set K)

/-- A step of a program alone. What it touches is held, what it has acquired exclusively exclusively. -/
inductive SoloStep : Config K V O R W → Config K V O R W → Prop where
  /-- An object is acquired. -/
  | acquire {k exclusive rest objects w} : k ∈ rd → (exclusive = true → k ∈ wr) →
      SoloStep ⟨.acquire k exclusive rest, objects, w⟩ ⟨rest, objects, w⟩
  /-- An object is looked at. -/
  | look {k rest objects w v} : k ∈ rd → objects k = some v → SoloStep ⟨.look k rest, objects, w⟩ ⟨rest v, objects, w⟩
  /-- An object is changed. -/
  | write {k op rest objects w v v' w'} : k ∈ rd → objects k = some v → apply op v w = some (v', w') →
      SoloStep ⟨.write k op rest, objects, w⟩ ⟨rest, update objects k (some v'), w'⟩

/-- Some steps. -/
abbrev Solo : Config K V O R W → Config K V O R W → Prop := Relation.ReflTransGen (SoloStep apply rd wr)

variable {apply rd wr} {c c' : Config K V O R W}

/-- A step is the same with another object under a name that is not held. -/
theorem SoloStep.frame (h : SoloStep apply rd wr c c') {k : K} (hk : k ∉ rd) (o : Option V) :
    SoloStep apply rd wr ⟨c.prog, update c.objects k o, c.written⟩ ⟨c'.prog, update c'.objects k o, c'.written⟩ := by
  have hne : ∀ {k'}, k' ∈ rd → k' ≠ k := fun hk' heq => hk (heq ▸ hk')
  cases h with
  | acquire hrd hwr => exact .acquire hrd hwr
  | look hrd hv => exact .look hrd (by rw [Function.update_of_ne (hne hrd)]; exact hv)
  | @write k' op rest objects w v v' w' hrd hv hop =>
    rw [Function.update_comm (hne hrd)]
    exact .write hrd (by rw [Function.update_of_ne (hne hrd)]; exact hv) hop

theorem Solo.frame (h : Solo apply rd wr c c') {k : K} (hk : k ∉ rd) (o : Option V) :
    Solo apply rd wr ⟨c.prog, update c.objects k o, c.written⟩ ⟨c'.prog, update c'.objects k o, c'.written⟩ := by
  induction h with
  | refl => exact .refl
  | tail _ hstep ih => exact ih.tail (hstep.frame hk o)

theorem SoloStep.mono {rd' wr' : Set K} (hrd : rd ⊆ rd') (hwr : wr ⊆ wr') (h : SoloStep apply rd wr c c') :
    SoloStep apply rd' wr' c c' := by
  cases h with
  | acquire hk hx => exact .acquire (hrd hk) fun he => hwr (hx he)
  | look hk hv => exact .look (hrd hk) hv
  | write hk hv hop => exact .write (hrd hk) hv hop

theorem Solo.mono {rd' wr' : Set K} (hrd : rd ⊆ rd') (hwr : wr ⊆ wr') (h : Solo apply rd wr c c') : Solo apply rd' wr' c c' := by
  induction h with
  | refl => exact .refl
  | tail _ hstep ih => exact ih.tail (hstep.mono hrd hwr)

/-- A step leaves what the program returns. -/
theorem SoloStep.run_eq (h : SoloStep apply rd wr c c') :
    c.prog.run apply c.objects c.written = c'.prog.run apply c'.objects c'.written := by
  cases h with
  | acquire => rfl
  | look _ hv => simp only [Prog.run, hv]
  | write _ hv hop => simp only [Prog.run, hv, hop]

/-- **Steps to the end** give what the function gives. -/
theorem Solo.run_eq (h : Solo apply rd wr c c') :
    c.prog.run apply c.objects c.written = c'.prog.run apply c'.objects c'.written := by
  induction h with
  | refl => rfl
  | tail _ hstep ih => exact ih.trans hstep.run_eq

/-- A program that has got to its end has acquired what it asks for first. -/
theorem Solo.acquired {k : K} {exclusive : Bool} {rest : Prog K V O R} {objects objects' : K → Option V} {w w' : W} {r : R}
    (h : Solo apply rd wr ⟨.acquire k exclusive rest, objects, w⟩ ⟨.ret r, objects', w'⟩) :
    k ∈ rd ∧ (exclusive = true → k ∈ wr) ∧ Solo apply rd wr ⟨rest, objects, w⟩ ⟨.ret r, objects', w'⟩ := by
  rcases h.cases_head with heq | ⟨c, hstep, hrest⟩
  · cases heq
  · cases hstep with
    | acquire hrd hwr => exact ⟨hrd, hwr, hrest⟩

theorem Solo.acquiredAll {rest : Prog K V O R} {objects objects' : K → Option V} {w w' : W} {r : R} : ∀ {ks : List K},
    Solo apply rd wr ⟨.acquireAll ks rest, objects, w⟩ ⟨.ret r, objects', w'⟩ →
    (∀ k ∈ ks, k ∈ rd) ∧ Solo apply rd wr ⟨rest, objects, w⟩ ⟨.ret r, objects', w'⟩
  | [], h => ⟨fun _ hk => absurd hk List.not_mem_nil, h⟩
  | k :: ks, h => by
    obtain ⟨hk, -, hrest⟩ := h.acquired
    obtain ⟨hks, hrest⟩ := hrest.acquiredAll
    refine ⟨?_, hrest⟩
    intro k' hk'
    rcases List.mem_cons.mp hk' with rfl | hk'
    · exact hk
    · exact hks k' hk'

/-- **A program that takes the rows of a stream** has taken all of them when it goes on. -/
theorem Solo.collected {next : List R' → Prog K V O R} {objects objects' : K → Option V} {w w' : W} {r : R} :
    ∀ {s : Stream K V R'} {rows : List R'},
    Solo apply rd wr ⟨s.collect next rows, objects, w⟩ ⟨.ret r, objects', w'⟩ →
    ∃ rows', s.run objects = some rows' ∧ Solo apply rd wr ⟨next (rows ++ rows'), objects, w⟩ ⟨.ret r, objects', w'⟩
  | .done, rows, h => ⟨[], rfl, by rwa [List.append_nil]⟩
  | .fail, _, h => by
    rcases h.cases_head with heq | ⟨c, hstep, -⟩
    · cases heq
    · cases hstep
  | .yield r' rest, rows, h => by
    obtain ⟨rows', hrun, hrest⟩ := Solo.collected (s := rest) h
    refine ⟨r' :: rows', by rw [Stream.run, hrun]; rfl, ?_⟩
    rwa [List.append_assoc] at hrest
  | .look k rest, rows, h => by
    rcases h.cases_head with heq | ⟨c, hstep, hrest⟩
    · cases heq
    · cases hstep with
      | look hrd hv =>
        obtain ⟨rows', hrun, hrest⟩ := Solo.collected (s := rest _) hrest
        exact ⟨rows', by simp only [Stream.run, hv, hrun], hrest⟩

end Alone

end Rmdb.Lib
