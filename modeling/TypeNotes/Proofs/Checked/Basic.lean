import Mathlib.Data.List.Forall2
import TypeNotes.Signature.Token

/-!
# Operations that can fail

The definitions of this development answer in every case. Where one of them looks at a place of a
list, it has an answer for a place that does not exist, which is never the one that counts. To say
so, the modules of this directory do the same work with operations that fail there (`Fault`): they
look at places of lists, keep a stack, look up keys, and end in an error where a signature cannot be
read. Each comes out as the plain definition does, for every input, and so nothing in them fails.
-/

namespace TypeNotes

/-- What can go wrong. -/
inductive Fault
  /-- A list does not have the place that is asked for. -/
  | index
  /-- The stack of modes is empty, or has lost the mode at its bottom. -/
  | stack
  /-- A mapping does not have the key that is asked for. -/
  | key
  /-- A value is not of the form that is asked for. -/
  | form
  /-- A signature cannot be read. -/
  | signature (e : Signature.Error)
  /-- The budget for nested phrases is used up. -/
  | depth
  deriving DecidableEq, Repr

/-- The outcome of operations that can fail. -/
abbrev Checked (α : Type) : Type := Except Fault α

namespace Checked

variable {α β : Type}

/-- The answer, or else a fault. -/
def orFault (fault : Fault) : Option α → Checked α
  | some a => .ok a
  | none => .error fault

/-- The item at a place of a list. -/
def item (l : List α) (i : Nat) : Checked α := orFault .index l[i]?

/-- The last item of a list. -/
def lastItem (l : List α) : Checked α := orFault .index l.getLast?

/-- The list with another item at a place. -/
def put (l : List α) (i : Nat) (a : α) : Checked (List α) :=
  if i < l.length then .ok (l.set i a) else .error .index

@[simp]
theorem ok_bind (a : α) (f : α → Checked β) : ((Except.ok a : Checked α) >>= f) = f a := rfl

@[simp]
theorem pure_eq (a : α) : (pure a : Checked α) = .ok a := rfl

theorem item_eq_ok {l : List α} {i : Nat} {a : α} (h : l[i]? = some a) : item l i = .ok a := by
  rw [item, h, orFault]

theorem lastItem_eq_ok {l : List α} {a : α} (h : l.getLast? = some a) : lastItem l = .ok a := by
  rw [lastItem, h, orFault]

/-- `put` replaces the item at an index that exists. -/
theorem put_append (before : List α) (a b : α) (after : List α) :
    put (before ++ a :: after) before.length b = .ok (before ++ b :: after) := by
  rw [put, if_pos (by simp), List.set_append_right _ _ (Nat.le_refl _), Nat.sub_self,
    List.set_cons_zero]

/-! ### Operations on all items of a list

They succeed if each of them does. -/

/-- The lists that come of all items, one after another. -/
def gather (l : List α) (f : α → Checked (List β)) : Checked (List β) := do
  return (← l.mapM f).flatten

/-- `mapM` succeeds for a list if its steps succeed one by one. -/
theorem mapM_of_forall₂ {f : α → Checked β} {l : List α} {l' : List β}
    (h : List.Forall₂ (fun a b => f a = .ok b) l l') : l.mapM f = .ok l' := by
  induction h with
  | nil => rfl
  | cons hfirst _ ih =>
    rw [List.mapM_cons, hfirst, ok_bind, ih]
    rfl

theorem mapM_eq_ok {f : α → Checked β} {g : α → β} {l : List α} (h : ∀ a ∈ l, f a = .ok (g a)) :
    l.mapM f = .ok (l.map g) :=
  mapM_of_forall₂ (List.forall₂_map_right_iff.2 (List.forall₂_same.2 h))

theorem filterMapM_eq_ok {f : α → Checked (Option β)} {g : α → Option β} {l : List α}
    (h : ∀ a ∈ l, f a = .ok (g a)) : l.filterMapM f = .ok (l.filterMap g) := by
  induction l with
  | nil => rfl
  | cons a l ih =>
    have hrest := ih fun b hb => h b (List.mem_cons_of_mem _ hb)
    rw [List.filterMapM_cons, h a List.mem_cons_self, hrest, ok_bind, List.filterMap_cons]
    cases g a <;> rfl

theorem gather_eq_ok {f : α → Checked (List β)} {g : α → List β} {l : List α}
    (h : ∀ a ∈ l, f a = .ok (g a)) : gather l f = .ok (l.flatMap g) := by
  rw [gather, mapM_eq_ok h, ok_bind, pure_eq, List.flatMap_def]

/-- A `foldlM` of steps that keep a state in step with another one succeeds, and keeps it so to the
end. -/
theorem foldlM_eq_ok {γ : Type} {f : γ → α → Checked γ} {g : β → α → β} (toState : β → γ)
    (h : ∀ b a, f (toState b) a = .ok (toState (g b a))) (l : List α) (b : β) :
    l.foldlM f (toState b) = .ok (toState (l.foldl g b)) := by
  induction l generalizing b with
  | nil => rfl
  | cons a l ih => rw [List.foldlM_cons, h, ok_bind, ih, List.foldl_cons]

end Checked

end TypeNotes
