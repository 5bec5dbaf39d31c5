import Mathlib.Data.Fin.VecNotation
import Mathlib.Data.List.Nodup
import BasisLU.Proofs.Factorization.Safety

/-!
# Solves of separate vectors

A solve leaves the factorization as it was, with the scratch buffer zero again, so it does not
matter what was solved before it. Vectors are known by name here, and `solveAll` makes one solve
after another, each with the factorization and the vectors that those before it left. If no two
solves share a vector, then after any of them, in any order, a vector that was solved is what its
solve comes to `Alone` (`solveAll_eq_of_perm`).
-/

namespace BasisLU

variable {α ι : Type}

/-- A solve of vectors that are known by name. -/
inductive Solve (ι : Type) where
  | ftran (i : ι)
  | ftranInPlace (i : ι)
  | ftranPair (i j : ι) (inPlace : Bool)
  | btran (i : ι)
  deriving DecidableEq, Repr

namespace Solve

/-- The vectors that are solved. -/
def names : Solve ι → List ι
  | ftran i | ftranInPlace i | btran i => [i]
  | ftranPair i j _ => [i, j]

/-- The call, with the vectors that the names stand for. -/
def operation (vectors : ι → IndexedVector α) : Solve ι → Operation α
  | ftran i => .ftran (vectors i)
  | ftranInPlace i => .ftranInPlace (vectors i)
  | ftranPair i j inPlace => .ftranPair (vectors i) (vectors j) inPlace
  | btran i => .btran (vectors i)

/-- What a pair does with its second vector. -/
def second (j : ι) (inPlace : Bool) : Solve ι := if inPlace then ftranInPlace j else ftran j

theorem operation_congr {vectors vectors' : ι → IndexedVector α} {s : Solve ι}
    (h : ∀ i ∈ s.names, vectors' i = vectors i) : s.operation vectors' = s.operation vectors := by
  cases s <;> simp_all [names, operation]

theorem isSolve_operation (vectors : ι → IndexedVector α) (s : Solve ι) :
    (s.operation vectors).IsSolve := by
  cases s <;> trivial

end Solve

section Put

variable [DecidableEq ι]

/-- The vectors with those of the names replaced. -/
def put (names : List ι) (solved : List (IndexedVector α)) (vectors : ι → IndexedVector α) :
    ι → IndexedVector α :=
  (names.zip solved).foldl (fun vectors e => Function.update vectors e.1 e.2) vectors

theorem put_map (solved : ι → IndexedVector α) :
    ∀ (names : List ι) (vectors : ι → IndexedVector α),
      put names (names.map solved) vectors = fun i => if i ∈ names then solved i else vectors i
  | [], _ => by simp [put]
  | j :: names, vectors => by
    have ih := put_map solved names (Function.update vectors j (solved j))
    rw [List.map_cons, put, List.zip_cons_cons, List.foldl_cons]
    refine ih.trans (funext fun i => ?_)
    by_cases hi : i = j
    · subst hi
      simp
    · simp [hi]

/-- Vectors for distinct names, and for all others those there were. -/
theorem exists_map_eq (vectors : ι → IndexedVector α) :
    ∀ {names : List ι} {solved : List (IndexedVector α)}, names.Nodup →
      solved.length = names.length →
      ∃ vectors', names.map vectors' = solved ∧ ∀ i, i ∉ names → vectors' i = vectors i
  | [], solved, _, hlen => ⟨vectors, (List.length_eq_zero_iff.1 hlen).symm, fun _ _ => rfl⟩
  | j :: names, v :: solved, hnodup, hlen => by
    obtain ⟨hj, hnodup⟩ := List.nodup_cons.1 hnodup
    obtain ⟨vectors', rfl, hrest⟩ := exists_map_eq vectors hnodup (Nat.succ.inj hlen)
    refine ⟨Function.update vectors' j v, ?_, fun i hi => ?_⟩
    · rw [List.map_cons, Function.update_self]
      congr 1
      exact List.map_congr_left fun i hi =>
        Function.update_of_ne (ne_of_mem_of_not_mem hi hj) _ _
    · rw [List.mem_cons, not_or] at hi
      rw [Function.update_of_ne hi.1, hrest i hi.2]

end Put

namespace Factorization

variable [Scalar α] {f g : Factorization α} {vectors solved solved' : ι → IndexedVector α}
  {s : Solve ι} {solves : List (Solve ι)}

/-- Made with the vectors as they are, the solve comes to those that the names stand for in
`solved`, and leaves the factorization as it was. -/
def Alone (f : Factorization α) (vectors solved : ι → IndexedVector α) (s : Solve ι) : Prop :=
  ∃ reply, (s.operation vectors).perform f = .ok reply ∧ reply.factorization = f ∧
    s.names.map solved = reply.vectors

theorem Alone.congr (h : f.Alone vectors solved s) {vectors' : ι → IndexedVector α}
    (hvectors : ∀ i ∈ s.names, vectors' i = vectors i)
    (hsolved : ∀ i ∈ s.names, solved' i = solved i) : f.Alone vectors' solved' s := by
  obtain ⟨reply, hr, hf, hnames⟩ := h
  exact ⟨reply, Solve.operation_congr hvectors ▸ hr, hf,
    (List.map_congr_left hsolved).trans hnames⟩

theorem length_vectors_of_perform {reply : Reply α}
    (hr : (s.operation vectors).perform f = .ok reply) :
    reply.vectors.length = s.names.length := by
  cases s
  all_goals
    simp only [Solve.operation, Operation.perform, bind_eq_ok_iff, pure_eq_ok_iff] at hr
    obtain ⟨_, -, rfl⟩ := hr
    rfl

/-- What a call does alone is what its reply says. -/
theorem alone_iff {β : Type} {x : Except Fault β} {answer : β → Reply α}
    (h : (s.operation vectors).perform f = x >>= fun r => pure (answer r)) :
    f.Alone vectors solved s ↔ ∃ r, x = .ok r ∧ (answer r).factorization = f ∧
      s.names.map solved = (answer r).vectors := by
  simp only [Alone, h, bind_eq_ok_iff, pure_eq_ok_iff, exists_exists_and_eq_and]

theorem alone_ftran_iff {i : ι} :
    f.Alone vectors solved (.ftran i) ↔ f.ftran (vectors i) = .ok (solved i, f) := by
  rw [alone_iff rfl]
  simp [Solve.names, Operation.solved]

theorem alone_ftranInPlace_iff {i : ι} :
    f.Alone vectors solved (.ftranInPlace i) ↔ f.ftranInPlace (vectors i) = .ok (solved i) := by
  rw [alone_iff rfl]
  simp [Solve.names, Operation.solved]

theorem alone_ftranPair_iff {i j : ι} {inPlace : Bool} :
    f.Alone vectors solved (.ftranPair i j inPlace) ↔
      f.ftranPair (vectors i) (vectors j) inPlace = .ok (solved i, solved j, f) := by
  rw [alone_iff rfl]
  simp [Solve.names, Operation.solved]

/-- Both vectors of a pair come to what they come to alone. -/
theorem Sound.alone_of_ftranPair (h : f.Sound) {i j : ι} {inPlace : Bool}
    (hpair : f.Alone vectors solved (.ftranPair i j inPlace)) :
    f.Alone vectors solved (.ftran i) ∧ f.Alone vectors solved (.second j inPlace) := by
  obtain ⟨-, hfirst, hsecond⟩ := h.ftranPair_eq_ok_iff.1 (alone_ftranPair_iff.1 hpair)
  refine ⟨alone_ftran_iff.2 hfirst, ?_⟩
  cases inPlace with
  | true => exact alone_ftranInPlace_iff.2 hsecond
  | false => exact alone_ftran_iff.2 hsecond

/-- Every solve in turn, with what those before it left. -/
def solveAll [DecidableEq ι] : Factorization α → (ι → IndexedVector α) → List (Solve ι) →
    Except Fault (Factorization α × (ι → IndexedVector α))
  | f, vectors, [] => .ok (f, vectors)
  | f, vectors, s :: solves => do
    let reply ← (s.operation vectors).perform f
    reply.factorization.solveAll (put s.names reply.vectors vectors) solves

variable [DecidableEq ι]

theorem solveAll_eq_ok : ∀ {solves : List (Solve ι)} {vectors : ι → IndexedVector α},
    (solves.flatMap Solve.names).Nodup → (∀ s ∈ solves, f.Alone vectors solved s) →
    f.solveAll vectors solves =
      .ok (f, fun i => if i ∈ solves.flatMap Solve.names then solved i else vectors i)
  | [], vectors, _, _ => by simp [solveAll]
  | s :: solves, vectors, hnodup, halone => by
    rw [List.flatMap_cons, List.nodup_append'] at hnodup
    obtain ⟨-, hnodup, hapart⟩ := hnodup
    obtain ⟨reply, hr, hf, hnames⟩ := halone s List.mem_cons_self
    -- The solves that follow find their vectors as they were.
    have hrest (t : Solve ι) (ht : t ∈ solves) :
        f.Alone (fun i => if i ∈ s.names then solved i else vectors i) solved t :=
      (halone t (List.mem_cons_of_mem _ ht)).congr
        (fun i hi => if_neg fun his => hapart his (List.mem_flatMap.2 ⟨t, ht, hi⟩)) fun _ _ => rfl
    rw [solveAll, hr, ok_bind, hf, ← hnames, put_map, solveAll_eq_ok hnodup hrest]
    congr 2
    funext i
    by_cases hi : i ∈ s.names <;> simp [hi]

theorem Invariant.exists_alone [LawfulScalar α] (h : f.Invariant) :
    ∀ {solves : List (Solve ι)}, (solves.flatMap Solve.names).Nodup →
      (∀ s ∈ solves, f.Permits (s.operation vectors)) →
      ∃ solved, ∀ s ∈ solves, f.Alone vectors solved s
  | [], _, _ => ⟨vectors, nofun⟩
  | s :: solves, hnodup, hpermits => by
    rw [List.flatMap_cons, List.nodup_append'] at hnodup
    obtain ⟨hnames, hnodup, hapart⟩ := hnodup
    obtain ⟨hs, hpermits⟩ := List.forall_mem_cons.1 hpermits
    obtain ⟨others, hothers⟩ := h.exists_alone hnodup hpermits
    obtain ⟨reply, hr⟩ := h.exists_perform hs
    obtain ⟨solved, hsolved, hkept⟩ := exists_map_eq others hnames (length_vectors_of_perform hr)
    have hf := h.perform_eq_of_isSolve _ (s.isSolve_operation vectors) hr
    refine ⟨solved, List.forall_mem_cons.2 ⟨⟨reply, hr, hf, hsolved⟩, fun t ht => ?_⟩⟩
    exact (hothers t ht).congr (fun _ _ => rfl) fun i hi =>
      hkept i fun his => hapart his (List.mem_flatMap.2 ⟨t, ht, hi⟩)

/-- Solves of separate vectors that fit a valid factorization all succeed, and none of them changes
the factorization. After any of them, in any order, each vector solved so far is what its solve
comes to alone, and every other vector is as it was. Two vectors solved in one call are what they
are in two. -/
theorem solveAll_eq_of_perm [LawfulScalar α] {start : Factorization α} (hnew : start.New)
    (hreach : Reaches start f) (hnodup : (solves.flatMap Solve.names).Nodup)
    (hpermits : ∀ s ∈ solves, f.Permits (s.operation vectors)) :
    ∃ solved, (∀ s ∈ solves, f.Alone vectors solved s) ∧
      (∀ i j inPlace, .ftranPair i j inPlace ∈ solves →
        f.Alone vectors solved (.ftran i) ∧ f.Alone vectors solved (.second j inPlace)) ∧
      ∀ first rest, (first ++ rest).Perm solves → f.solveAll vectors first =
        .ok (f, fun i => if i ∈ first.flatMap Solve.names then solved i else vectors i) := by
  have h := invariant_of_reaches hnew hreach
  obtain ⟨solved, halone⟩ := h.exists_alone hnodup hpermits
  refine ⟨solved, halone, fun i j inPlace hmem => h.alone_of_ftranPair (halone _ hmem),
    fun first rest hperm => solveAll_eq_ok ?_ fun s hs => ?_⟩
  · have hall := (hperm.flatMap_right Solve.names).nodup_iff.2 hnodup
    rw [List.flatMap_append] at hall
    exact hall.of_append_left
  · exact halone s (hperm.mem_iff.1 (List.mem_append_left rest hs))

/-- A basis with an update, after a larger one. -/
def narrowed : List (Operation Float) :=
  [.setChainCapacity 1, .resize 3 3, .load ![![0, 0.1], ![4, 1]], .factor,
    .replace ⟨#[3, 0.5], [1, 0], .packed⟩ 1 0.7]

/-- Vectors in both layouts, one with values that are not numbers and a row listed twice. -/
def mixed : Fin 4 → IndexedVector Float :=
  ![⟨#[1 / 0, 2, 0 / 0], [1, 0, 1], .packed⟩, .ofArray #[1, -1] 0, .ofArray #[0, 1 / 3, 0] 0,
    ⟨#[0.2, 0], [1], .packed⟩]

theorem made_mixed (i : Fin 4) : (mixed i).Made := by
  fin_cases i
  · have hpacked : IndexedVector.ofPacked 3 [1, 0, 1] [1 / 0, 2, 0 / 0] = .ok (mixed 0) := rfl
    exact .ofPacked hpacked
  · exact .ofArray _ _
  · exact .ofArray _ _
  · have hpacked : IndexedVector.ofPacked 2 [1] [0.2] = .ok (mixed 3) := rfl
    exact .ofPacked hpacked

theorem solveAll_eq_of_perm_narrowed :
    ∃ (f : Factorization Float) (w : Fin 4 → IndexedVector Float), initial.run narrowed = .ok f ∧
      f.solveAll mixed [.btran 0, .ftranPair 3 1 true, .ftran 2] = .ok (f, w) ∧
      f.solveAll mixed [.ftran 2, .btran 0, .ftranPair 3 1 true] = .ok (f, w) ∧
      f.ftran (mixed 2) = .ok (w 2, f) ∧ f.ftran (mixed 3) = .ok (w 3, f) ∧
      f.ftranInPlace (mixed 1) = .ok (w 1) := by
  have hrun : Except.isOk (do
      let f ← initial.run narrowed
      if ¬ (f.status = .valid ∧ f.rows = 2) then throw .outOfRange
      return f : Except Fault (Factorization Float)) = true := by
    decide +kernel
  obtain ⟨_, hrun⟩ := exists_eq_ok_of_isOk hrun
  simp only [bind_eq_ok_iff, guard_eq_ok_iff, pure_eq_ok_iff, not_not] at hrun
  obtain ⟨f, hf, ⟨hvalid, hrows⟩, rfl⟩ := hrun
  have hlists : ∀ i, 2 ≤ (mixed i).capacity ∧ ∀ r ∈ (mixed i).indices, r < 2 := by decide +kernel
  have haccepts (i : Fin 4) : f.Accepts (mixed i) :=
    ⟨made_mixed i, hrows ▸ (hlists i).1, hrows ▸ (hlists i).2⟩
  have hscattered : (mixed 1).layout = .scattered := rfl
  have hnodup : ([.btran 0, .ftranPair 3 1 true, .ftran 2].flatMap
      (Solve.names : Solve (Fin 4) → List (Fin 4))).Nodup := by decide
  have hpermits : ∀ s ∈ [.btran 0, .ftranPair 3 1 true, .ftran 2],
      f.Permits (Solve.operation mixed s) := by
    simp [Solve.operation, Permits, hvalid, haccepts, hscattered]
  obtain ⟨w, halone, hpair, hall⟩ :=
    solveAll_eq_of_perm .initial (reaches_of_run hf) hnodup hpermits
  have hevery (first : List (Solve (Fin 4))) (hperm : first.isPerm
      [.btran 0, .ftranPair 3 1 true, .ftran 2] = true)
      (hnames : ∀ i, i ∈ first.flatMap Solve.names) : f.solveAll mixed first = .ok (f, w) := by
    rw [hall first [] (by rwa [List.append_nil, ← List.isPerm_iff])]
    simp only [hnames, if_true]
  obtain ⟨hfirst, hsecond⟩ := hpair 3 1 true (by simp)
  exact ⟨f, w, hf, hevery _ (by decide) (by decide), hevery _ (by decide) (by decide),
    alone_ftran_iff.1 (halone _ (by simp)), alone_ftran_iff.1 hfirst,
    alone_ftranInPlace_iff.1 hsecond⟩

end Factorization

end BasisLU
