import BasisLU.Fault

/-!
# Scattering

Entries written into a vector one after the other, so that of two for one place the later stays.

- `scatter_of_forall_ne`: a place that no entry names keeps its value;
- `scatter_of_mem`: a place that one entry names holds the value of that entry;
- `scatter_eq_ofFn`: entries that agree with a function, written over whatever they do not name;
- `scatter_append`: a list written after another.

`locate` checks the places of entries first: one past the end is a fault.
-/

namespace BasisLU

variable {β : Type} {n : Nat}

/-- The vector with the entries written to their places in turn. -/
def scatter (entries : List (Fin n × β)) (x : Vector β n) : Vector β n :=
  entries.foldl (fun x e => x.set e.1 e.2 e.1.isLt) x

@[simp] theorem scatter_nil (x : Vector β n) : scatter [] x = x := rfl

@[simp] theorem scatter_cons (e : Fin n × β) (entries : List (Fin n × β)) (x : Vector β n) :
    scatter (e :: entries) x = scatter entries (x.set e.1 e.2 e.1.isLt) := rfl

theorem scatter_append (first second : List (Fin n × β)) (x : Vector β n) :
    scatter (first ++ second) x = scatter second (scatter first x) := List.foldl_append

theorem scatter_of_forall_ne {entries : List (Fin n × β)} {i : Nat} (hi : i < n)
    (h : ∀ e ∈ entries, e.1.val ≠ i) (x : Vector β n) : (scatter entries x)[i] = x[i] := by
  induction entries generalizing x with
  | nil => rfl
  | cons e rest ih =>
    rw [scatter_cons, ih fun e' he' => h e' (List.mem_cons_of_mem _ he')]
    exact Vector.getElem_set_ne _ _ (h e List.mem_cons_self)

theorem scatter_of_mem {entries : List (Fin n × β)} {e : Fin n × β} (he : e ∈ entries)
    (hn : (entries.map Prod.fst).Nodup) (x : Vector β n) : (scatter entries x).get e.1 = e.2 := by
  induction entries generalizing x with
  | nil => cases he
  | cons e' rest ih =>
    rw [List.map_cons, List.nodup_cons] at hn
    rw [scatter_cons]
    rcases List.mem_cons.1 he with rfl | he
    · have hne : ∀ e' ∈ rest, e'.1.val ≠ e.1.val := fun e' he' hv =>
        hn.1 (List.mem_map.2 ⟨e', he', Fin.ext hv⟩)
      exact (scatter_of_forall_ne e.1.isLt hne _).trans (Vector.getElem_set_self _)
    · exact ih he hn.2 _

theorem scatter_eq_ofFn {entries : List (Fin n × β)} {g : Fin n → β}
    (hmem : ∀ e ∈ entries, e.2 = g e.1) {x : Vector β n}
    (hx : ∀ i, (∀ e ∈ entries, e.1 ≠ i) → x.get i = g i) : scatter entries x = Vector.ofFn g := by
  induction entries generalizing x with
  | nil =>
    ext i hi
    rw [scatter_nil, Vector.getElem_ofFn]
    exact hx ⟨i, hi⟩ nofun
  | cons e rest ih =>
    rw [scatter_cons]
    refine ih (fun e' he' => hmem e' (List.mem_cons_of_mem _ he')) fun i hi => ?_
    by_cases he : e.1 = i
    · subst he
      rw [← hmem e List.mem_cons_self]
      exact Vector.getElem_set_self _
    · rw [← hx i (List.forall_mem_cons.2 ⟨he, hi⟩)]
      exact Vector.getElem_set_ne _ _ fun h => he (Fin.ext h)

/-- The entries with their places checked. -/
def locate (n : Nat) (entries : List (Nat × β)) : Except Fault (List (Fin n × β)) :=
  entries.mapM fun (place, value) => do return (← Fault.below n place, value)

end BasisLU
