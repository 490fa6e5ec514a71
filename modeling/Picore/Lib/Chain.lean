import Mathlib.Data.List.Induction
import Mathlib.Logic.Function.Basic
import Mathlib.Tactic.Common

/-!
# Linked lists

A linked list is a head pointer and a `next` pointer for each node. A `Cell` is
a place that holds a pointer of the list: the head, or the `next` field of a
node. A loop that walks a list with a pointer to a pointer walks its cells.

Results:
1. `path_append`, `path_update`: paths join, and do not depend on the nodes
   beside them.
2. `Path.unique`, `Path.nodup`: a head pointer has one list, and no node is in
   it twice.
3. `Holds.deref_after`, `Holds.assign_after`: what the cell behind a prefix
   holds, and the list after an assignment to it.
-/

namespace Chain

variable {ι : Type}

/-- `Path next h l e`: following `next` from `h` visits the nodes `l` and arrives
at `e`. -/
def Path (next : ι → Option ι) : Option ι → List ι → Option ι → Prop
  | h, [], e => h = e
  | h, t :: l, e => h = some t ∧ Path next (next t) l e

/-- The pointers of a singly linked list: the head, and a `next` pointer in each element, whether it
is in the list or not. -/
structure Links (ι : Type) where
  head : Option ι
  next : ι → Option ι

/-- The list has the nodes `l`: the pointers lead from the head through these to the end. -/
def Links.Holds (c : Links ι) (l : List ι) : Prop := Path c.next c.head l none

/-- A place that holds a pointer of the list. A pointer to a pointer, with which C code walks a list
to insert into it, is a value of this type. -/
inductive Cell (ι : Type)
  | head
  | next (t : ι)

def Links.deref (c : Links ι) : Cell ι → Option ι
  | .head => c.head
  | .next t => c.next t

/-- The list after `v` is written to a cell. -/
def Links.assign [DecidableEq ι] (c : Links ι) (x : Cell ι) (v : Option ι) : Links ι :=
  match x with
  | .head => { c with head := v }
  | .next t => { c with next := Function.update c.next t v }

/-- The cell behind the nodes `l`, where a walk of the list stands when it has passed them. -/
def Cell.after (l : List ι) : Cell ι :=
  match l.getLast? with
  | none => .head
  | some t => .next t

@[simp] theorem Cell.after_nil : Cell.after ([] : List ι) = .head := rfl

@[simp] theorem Cell.after_concat (l : List ι) (t : ι) : Cell.after (l ++ [t]) = .next t := by
  simp [Cell.after]

/-! ## 1. Paths -/

theorem path_append {next : ι → Option ι} {h e : Option ι} {l l' : List ι} :
    Path next h (l ++ l') e ↔ ∃ m, Path next h l m ∧ Path next m l' e := by
  induction l generalizing h with
  | nil => simp [Path]
  | cons t l ih => simp [Path, ih, and_assoc]

theorem path_concat {next : ι → Option ι} {h e : Option ι} {l : List ι} {t : ι} :
    Path next h (l ++ [t]) e ↔ Path next h l (some t) ∧ next t = e := by
  rw [path_append]
  constructor
  · rintro ⟨_, hl, rfl, he⟩
    exact ⟨hl, he⟩
  · rintro ⟨hl, he⟩
    exact ⟨_, hl, rfl, he⟩

theorem Path.congr {next next' : ι → Option ι} {h e : Option ι} {l : List ι}
    (hp : Path next h l e) (heq : ∀ t ∈ l, next t = next' t) : Path next' h l e := by
  induction l generalizing h with
  | nil => exact hp
  | cons t l ih =>
    obtain ⟨rfl, hp⟩ := hp
    rw [List.forall_mem_cons] at heq
    rw [heq.1] at hp
    exact ⟨rfl, ih hp heq.2⟩

/-- A path does not depend on the nodes beside it. -/
theorem Path.update [DecidableEq ι] {next : ι → Option ι} {h e v : Option ι} {l : List ι} {x : ι}
    (hp : Path next h l e) (hx : x ∉ l) : Path (Function.update next x v) h l e :=
  hp.congr fun _ ht => (Function.update_of_ne (ne_of_mem_of_not_mem ht hx) _ _).symm

/-- The end of a path is the head pointer of the nodes that follow. -/
theorem Path.start {next : ι → Option ι} {h : Option ι} {l : List ι} (hp : Path next h l none) :
    h = l.head? := by
  cases l with
  | nil => exact hp
  | cons t l => exact hp.1

/-! ## 2. The nodes of a list -/

theorem Path.unique {next : ι → Option ι} {h : Option ι} {l l' : List ι}
    (hl : Path next h l none) (hl' : Path next h l' none) : l = l' := by
  induction l generalizing h l' with
  | nil =>
    obtain rfl : h = none := hl
    cases l' with
    | nil => rfl
    | cons t l' => exact absurd hl'.1 (by simp)
  | cons t l ih =>
    obtain ⟨rfl, hl⟩ := hl
    cases l' with
    | nil => exact absurd hl' (by simp [Path])
    | cons t' l' =>
      obtain ⟨ht, hl'⟩ := hl'
      cases ht
      rw [ih hl hl']

theorem Path.nodup {next : ι → Option ι} {h : Option ι} {l : List ι} (hl : Path next h l none) :
    l.Nodup := by
  induction l generalizing h with
  | nil => exact List.nodup_nil
  | cons t l ih =>
    obtain ⟨-, hl⟩ := hl
    refine List.nodup_cons.mpr ⟨fun hmem => ?_, ih hl⟩
    -- The list from `t` on would be the list from its second visit on.
    obtain ⟨l1, l2, rfl⟩ := List.append_of_mem hmem
    obtain ⟨_, -, -, hl2⟩ := path_append.mp hl
    have hlen := congrArg List.length (Path.unique hl hl2)
    simp at hlen
    omega

/-! ## 3. Cells -/

/-- The cell behind a prefix holds the pointer to what follows. -/
theorem Links.Holds.deref_after {c : Links ι} {l l' : List ι} (h : c.Holds (l ++ l')) :
    c.deref (.after l) = l'.head? := by
  obtain ⟨m, hl, hl'⟩ := path_append.mp h
  rw [← hl'.start]
  induction l using List.reverseRecOn with
  | nil => exact hl
  | append_singleton l t _ =>
    rw [Cell.after_concat]
    exact (path_concat.mp hl).2

/-- An assignment to the cell behind a prefix replaces what follows. -/
theorem Links.Holds.assign_after [DecidableEq ι] {c : Links ι} {l l' l'' : List ι} {v : Option ι}
    (h : c.Holds (l ++ l')) (hv : Path c.next v l'' none) (hdis : ∀ t ∈ l, t ∉ l'') :
    (c.assign (.after l) v).Holds (l ++ l'') := by
  obtain ⟨m, hl, -⟩ := path_append.mp h
  have hnd := (List.nodup_append.mp (Path.nodup h)).1
  induction l using List.reverseRecOn with
  | nil => exact hv
  | append_singleton l t _ =>
    have ht : t ∉ l := fun hmem => by
      have := (List.nodup_append.mp hnd).2.2 t hmem t (List.mem_singleton_self t)
      exact this rfl
    rw [Cell.after_concat]
    refine path_append.mpr ⟨v, path_concat.mpr ⟨?_, Function.update_self _ _ _⟩, ?_⟩
    · exact (path_concat.mp hl).1.update ht
    · exact hv.update (hdis t (by simp))

end Chain
