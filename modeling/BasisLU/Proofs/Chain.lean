import BasisLU.Proofs.Factorization.Reachable
import BasisLU.Proofs.Factorization.Stored

/-!
# Solves after a chain of replacements

A matrix is loaded and factored, columns are replaced, and solves go on in between (`Chain`). Slot
`r` of the factored basis holds the column that was pivoted on row `r` (`slotBasis`), and each
replacement puts the column that comes in into its slot. Over exact scalars the factorization
represents the basis so far (`Represents.of_chain`), so that basis is not singular, and both solves
return its solution, up to the entries that are not above the zero tolerance (`ftran_of_chain`,
`btran_of_chain`).
-/

namespace BasisLU.Factorization

open Matrix

variable {α : Type} {n : Nat}

/-- The factored matrix in slot order: slot `r` holds the column at the position of row `r`. -/
def slotBasis [Zero α] (f : Factorization α) (a : Fin n → Fin n → α) : Matrix (Fin n) (Fin n) α :=
  Matrix.of fun i r => match f.positions[r.val]? with
    | some k => if h : k < n then a i ⟨k, h⟩ else 0
    | none => 0

variable [ExactScalar α]

/-- What the factorization `f₀` of the basis `B₀` comes to by replacing columns and solving, and
what its basis comes to. The column that comes in is given by its solution for the basis so far, of
which the entry in the replaced slot is the pivot. -/
inductive Chain (f₀ : Factorization α) (B₀ : Matrix (Fin n) (Fin n) α) :
    Factorization α → Matrix (Fin n) (Fin n) α → Prop where
  | factored : Chain f₀ B₀ f₀ B₀
  | replaced {f g : Factorization α} {B : Matrix (Fin n) (Fin n) α} {d : IndexedVector α}
    {r : Fin n} {pivot : α} : Chain f₀ B₀ f B → d.Proper n → f.replace d r pivot = .ok g →
      Chain f₀ B₀ g (B.updateCol r (B *ᵥ Function.update (d.values n) r pivot))
  | solved {f : Factorization α} {B : Matrix (Fin n) (Fin n) α} {operation : Operation α}
    {reply : Reply α} : Chain f₀ B₀ f B → operation.IsSolve → operation.perform f = .ok reply →
      Chain f₀ B₀ reply.factorization B

variable {f g h k : Factorization α} {a : Fin n → Fin n → α} {B B₀ : Matrix (Fin n) (Fin n) α}

/-- A chain leads from a representation of the factored basis to one of the basis it comes to. -/
theorem Represents.of_chain {tolerance : α} (htol : 0 ≤ tolerance)
    (hf : f.Represents tolerance B₀) (hchain : Chain f B₀ g B) : g.Represents tolerance B := by
  induction hchain with
  | factored => exact hf
  | replaced _ hd hg ih => exact ih.replace htol hd _ hg
  | solved _ ho hr ih => rwa [ih.sound.perform_eq_of_isSolve _ ho hr]

theorem slotBasis_eq (hrows : f.rows = n) {σ : Equiv.Perm (Fin n)} (hσ : f.order.Orders σ)
    (a : Fin n → Fin n → α) : f.slotBasis a = (Matrix.of a).submatrix id σ := by
  ext i r
  simp [slotBasis, getElem?_positions hrows hσ]

/-- A basis factored is represented in slot order. -/
theorem Sound.represents_slotBasis (hg : g.Sound) (htol : 0 ≤ g.config.zeroTolerance)
    (hrows : g.rows = n)
    (hcolumns : ∀ k : Fin n, Block.column n k g.block = .ok (Vector.ofFn fun i => a i k))
    (hfactor : g.factor = .ok (h, none)) :
    h.Represents g.config.zeroTolerance (h.slotBasis a) := by
  obtain ⟨σ, hn, hσ, hrep⟩ :=
    hg.represents_of_columns (A := Matrix.of a) htol hrows hcolumns hfactor
  rwa [slotBasis_eq hn hσ]

/-- A matrix loaded and factored is represented in slot order. -/
theorem represents_of_load (hf : f.Sound) (htol : 0 ≤ f.config.zeroTolerance)
    (hload : f.load a = .ok g) (hfactor : g.factor = .ok (h, none)) :
    h.Represents f.config.zeroTolerance (h.slotBasis a) := by
  obtain ⟨hrows, hconfig, -⟩ := square_of_load hload
  rw [← hconfig] at htol ⊢
  exact (hf.load hload).represents_slotBasis htol hrows (column_of_load hload) hfactor

/-- Every basis that replacements lead to is nonsingular, and the forward solve returns the solution
for it. -/
theorem ftran_of_chain {config : Config α} (hreach : Reaches (ofConfig config) f)
    (htol : 0 < f.config.zeroTolerance) (hload : f.load a = .ok g)
    (hfactor : g.factor = .ok (h, none)) (hchain : Chain h (h.slotBasis a) k B) :
    B.det ≠ 0 ∧ ∀ v : IndexedVector α, v.Proper n → n ≤ v.capacity →
      ∃ w x, k.ftran v = .ok (w, k) ∧ w.layout = v.layout ∧
        B *ᵥ x = v.values n ∧ (∀ y, B *ᵥ y = v.values n → y = x) ∧
        w.Compacts f.config.zeroTolerance x := by
  have hrep := (represents_of_load (sound_of_reaches hreach) htol.le hload hfactor).of_chain
    htol.le hchain
  refine ⟨hrep.isUnit_det.ne_zero, fun v hv hcap => ?_⟩
  obtain ⟨w, x, hw, hlayout, hx, hcompact⟩ := hrep.ftran hv hcap
  exact ⟨w, x, hw, hlayout, hx, fun y hy => hrep.mulVec_injective (hy.trans hx.symm), hcompact⟩

/-- A basis whose rows are pivoted in the order `1`, `2`, `0`. -/
def sample : Fin 3 → Fin 3 → Rat := ![![0, 2, 1], ![4, 1, -1], ![2, 3, 5]]

/-- The vector `(1 / 2, 0, 3)`, packed. -/
def packedSample : IndexedVector Rat := ⟨#[3, 1 / 2, 0], [2, 0], .packed⟩

/-- The vector `(-1, 5, 0)`, scattered. -/
def scatteredSample : IndexedVector Rat := ⟨#[-1, 5, 0, 0], [1, 0], .scattered⟩

theorem packedSample_proper : packedSample.Proper 3 := ⟨by decide +kernel, by decide, by decide⟩

theorem scatteredSample_proper : scatteredSample.Proper 3 :=
  ⟨by decide +kernel, by decide, by decide⟩

/-- Two slots of the sample replaced, with a solve in between. -/
theorem exists_chain_sample : ∃ (g h k : Factorization Rat) (B : Matrix (Fin 3) (Fin 3) Rat),
    (ofConfig smallConfig).load sample = .ok g ∧ g.factor = .ok (h, none) ∧
      Chain h (h.slotBasis sample) k B ∧ k.updates = 2 := by
  have hrun : Except.isOk (do
      let g ← (ofConfig smallConfig).load sample
      let (h, refusal) ← g.factor
      if refusal.isSome then throw (.fault .outOfRange)
      let k ← h.replace packedSample 1 (7 / 3)
      let reply ← (Operation.btran scatteredSample).perform k
      let k ← reply.factorization.replace scatteredSample 0 (-2)
      if k.updates ≠ 2 then throw (.fault .outOfRange)
      return k : Except Failure (Factorization Rat)) = true := by
    decide +kernel
  obtain ⟨_, hrun⟩ := exists_eq_ok_of_isOk hrun
  simp only [bind_eq_ok_iff, liftFault_eq_ok_iff, guard_eq_ok_iff, pure_eq_ok_iff] at hrun
  obtain ⟨g, hg, ⟨h, refusal⟩, hh, hnone, k, hk, reply, hreply, k', hk', hupdates, -⟩ := hrun
  obtain rfl : refusal = none := by simpa using hnone
  have hsolve : (Operation.btran scatteredSample).IsSolve := trivial
  have hchain : Chain h (h.slotBasis sample) k _ :=
    .replaced (r := 1) .factored packedSample_proper hk
  exact ⟨g, h, k', _, hg, hh,
    .replaced (r := 0) (hchain.solved hsolve hreply) scatteredSample_proper hk', not_not.1 hupdates⟩

theorem ftran_of_chain_sample : ∃ (h k : Factorization Rat) (B : Matrix (Fin 3) (Fin 3) Rat),
    Chain h (h.slotBasis sample) k B ∧ k.updates = 2 ∧ B.det ≠ 0 ∧
      ∃ w x, k.ftran packedSample = .ok (w, k) ∧ B *ᵥ x = packedSample.values 3 ∧
        w.Compacts (1 / 10 ^ 13) x := by
  obtain ⟨g, h, k, B, hload, hfactor, hchain, hupdates⟩ := exists_chain_sample
  obtain ⟨hdet, hsolve⟩ := ftran_of_chain .refl (by decide +kernel) hload hfactor hchain
  obtain ⟨w, x, hw, -, hx, -, hcompact⟩ := hsolve packedSample packedSample_proper (by decide)
  exact ⟨h, k, B, hchain, hupdates, hdet, w, x, hw, hx, hcompact⟩

/-- The transposed solve returns the solution for the transpose of every basis that replacements
lead to: the right-hand side is indexed by slot, the solution by row. -/
theorem btran_of_chain {config : Config α} (hreach : Reaches (ofConfig config) f)
    (htol : 0 < f.config.zeroTolerance) (hload : f.load a = .ok g)
    (hfactor : g.factor = .ok (h, none)) (hchain : Chain h (h.slotBasis a) k B)
    {v : IndexedVector α} (hv : v.Proper n) (hcap : n ≤ v.capacity) :
    ∃ w y, k.btran v = .ok (w, k) ∧ w.layout = v.layout ∧
      Bᵀ *ᵥ y = v.values n ∧ (∀ z, Bᵀ *ᵥ z = v.values n → z = y) ∧
      w.Compacts f.config.zeroTolerance y := by
  have hrep := (represents_of_load (sound_of_reaches hreach) htol.le hload hfactor).of_chain
    htol.le hchain
  obtain ⟨w, y, hw, hlayout, hy, hcompact⟩ := hrep.btran hv hcap
  exact ⟨w, y, hw, hlayout, hy, fun z hz => hrep.transpose_mulVec_injective (hz.trans hy.symm),
    hcompact⟩

theorem btran_of_chain_sample : ∃ (h k : Factorization Rat) (B : Matrix (Fin 3) (Fin 3) Rat),
    Chain h (h.slotBasis sample) k B ∧ k.updates = 2 ∧
      ∃ w y, k.btran scatteredSample = .ok (w, k) ∧ Bᵀ *ᵥ y = scatteredSample.values 3 ∧
        w.Compacts (1 / 10 ^ 13) y := by
  obtain ⟨g, h, k, B, hload, hfactor, hchain, hupdates⟩ := exists_chain_sample
  obtain ⟨w, y, hw, -, hy, -, hcompact⟩ := btran_of_chain .refl (by decide +kernel) hload hfactor
    hchain scatteredSample_proper (by decide)
  exact ⟨h, k, B, hchain, hupdates, w, y, hw, hy, hcompact⟩

end BasisLU.Factorization
