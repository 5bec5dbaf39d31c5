import BasisLU.Proofs.Factorization.Reachable
import BasisLU.Proofs.Factorization.Stored

/-!
# Layouts of a vector

What a solve finds is told by the values of a tidy vector alone, whatever its layout and the order
of its entries (`Sound.exists_agree`), and so is the update of a replacement
(`Sound.replace_eq_of_sameValues`). Pairs packed at once and the same pairs inserted one after
another, in any order, have the same values (`exists_sameValues`). So their solutions list the same
entries in the same order, and the factorizations are the same after a replacement
(`solve_eq_of_layout`). That holds for all scalars whose zero passes the test for zero, however
their operations round.
-/

namespace BasisLU

namespace IndexedVector

variable {α : Type} [Scalar α] {p s : IndexedVector α}

/-- A packed and a scattered vector with room for `n` indices and the same values. -/
structure SameValues (p s : IndexedVector α) (n : Nat) : Prop where
  packed : p.layout = .packed
  scattered : s.layout = .scattered
  packed_tidy : p.Tidy n
  scattered_tidy : s.Tidy n
  packed_room : n ≤ p.capacity
  scattered_room : n ≤ s.capacity
  valueAt_eq : ∀ i, p.valueAt i = s.valueAt i

/-- A packed and a scattered vector with the same entries in the same order. -/
structure Agree (p s : IndexedVector α) : Prop where
  packed : p.layout = .packed
  scattered : s.layout = .scattered
  indices_eq : p.indices = s.indices
  valueAt_eq : ∀ i ∈ p.indices, p.valueAt i = s.valueAt i

/-- Pairs packed, and inserted in any order. -/
theorem exists_sameValues [LawfulZero α] {n capacity : Nat} {pairs pairs' : List (Nat × α)}
    (hnodup : (pairs.map Prod.fst).Nodup) (hlt : ∀ e ∈ pairs, e.1 < n)
    (hperm : pairs'.Perm pairs) (hn : n ≤ capacity) {blank : IndexedVector α}
    (hblank : allocate capacity = .ok blank) :
    ∃ p s, ofPacked capacity (pairs.map Prod.fst) (pairs.map Prod.snd) = .ok p ∧
      pairs'.foldlM (fun v e => v.insert e.1 e.2) blank = .ok s ∧ p.SameValues s n := by
  obtain ⟨p, hp, hpacked, hpcap, hplists⟩ := exists_ofPacked hnodup hlt hn hblank
  obtain ⟨hblankcap, hlayout, hlists⟩ := lists_of_allocate (n := n) hblank
  obtain ⟨s, hs, hscattered, hscap, hslists⟩ := hlists.exists_insertAll pairs' hlayout
    (hblankcap ▸ hn) (fun e he => hlt e (hperm.mem_iff.1 he))
    ((hperm.map Prod.fst).nodup_iff.2 hnodup)
  exact ⟨p, s, hp, hs, {
    packed := hpacked
    scattered := hscattered
    packed_tidy := hplists.toTidy
    scattered_tidy := hslists.toTidy
    packed_room := hpcap ▸ hn
    scattered_room := (hscap.trans hblankcap) ▸ hn
    valueAt_eq := hplists.valueAt_eq_of_perm hslists hperm }⟩

end IndexedVector

namespace Factorization

variable {α : Type} [Scalar α] {f : Factorization α} {p s : IndexedVector α}

/-- The solutions for the same values have the same entries. -/
theorem Sound.exists_agree [LawfulZero α] (h : f.Sound) {σ : Equiv.Perm (Fin f.rows)}
    (hσ : f.order.Orders σ) {targets : List (Fin f.rows × Nat)} (ht : Covers σ targets)
    (hsame : p.SameValues s f.rows) (solve : Vector α f.rows → Vector α f.rows) :
    ∃ p' s', f.solveThrough solve targets p = .ok (p', f) ∧
      f.solveThrough solve targets s = .ok (s', f) ∧ p'.Agree s' := by
  obtain ⟨found, hfound⟩ : ∃ found, found = kept f.config.zeroTolerance targets
      (solve (Vector.ofFn fun q => s.valueAt (σ.symm q))) := ⟨_, rfl⟩
  obtain ⟨p', hp', hpacked, hplists⟩ := h.solveThrough_of_tidy hσ ht hsame.packed_tidy
    hsame.packed_room solve (hfound.trans (by simp only [hsame.valueAt_eq]))
  obtain ⟨s', hs', hscattered, hslists⟩ :=
    h.solveThrough_of_tidy hσ ht hsame.scattered_tidy hsame.scattered_room solve hfound
  exact ⟨p', s', hp', hs', {
    packed := hpacked.trans hsame.packed
    scattered := hscattered.trans hsame.scattered
    indices_eq := hplists.indices_eq.trans hslists.indices_eq.symm
    valueAt_eq := fun i _ => hplists.valueAt_eq_of_perm hslists (.refl found) i }⟩

/-- The same values replace a column alike. -/
theorem Sound.replace_eq_of_sameValues (h : f.Sound) (hvalid : f.status = .valid)
    (hsame : p.SameValues s f.rows) (slot : Nat) (pivot : α) :
    f.replace p slot pivot = f.replace s slot pivot := by
  obtain ⟨σ, hσ⟩ := h.exists_orders hvalid
  have hp := hsame.packed_tidy
  have hs := hsame.scattered_tidy
  obtain ⟨pentries, hpentries, -⟩ :=
    (IndexedVector.hasSlots_of_nodup hp.nodup hp.lt hsame.packed_room).exists_entries
  obtain ⟨sentries, hsentries, -⟩ :=
    (IndexedVector.hasSlots_of_nodup hs.nodup hs.lt hsame.scattered_room).exists_entries
  have hupdate : f.newUpdate pentries slot pivot = f.newUpdate sentries slot pivot := by
    rw [newUpdate_eq hσ hp hpentries, newUpdate_eq hσ hs hsentries]
    simp only [hsame.valueAt_eq]
  -- Whatever is refused or faults before the entries are read does so for both.
  have hread (entries : List (Nat × α)) :
      (liftM (.ok entries : Except Fault (List (Nat × α))) >>= fun entries =>
        liftM (f.newUpdate entries slot pivot) >>= fun update => liftM (f.append update) :
        Except Failure (Factorization α)) =
      liftM (f.newUpdate entries slot pivot) >>= fun update => liftM (f.append update) := rfl
  simp only [Factorization.replace, hpentries, hsentries, hread, hupdate]

/-- Pairs packed at once, and the same pairs inserted one after another, in any order, have the same
solutions, and replace a column alike. -/
theorem solve_eq_of_layout [LawfulZero α] {config : Config α}
    (hreach : Reaches (ofConfig config) f) (hvalid : f.status = .valid)
    {pairs pairs' : List (Nat × α)} (hnodup : (pairs.map Prod.fst).Nodup)
    (hlt : ∀ e ∈ pairs, e.1 < f.rows) (hperm : pairs'.Perm pairs) {capacity : Nat}
    (hcap : f.rows ≤ capacity) {blank : IndexedVector α}
    (hblank : IndexedVector.allocate capacity = .ok blank) :
    ∃ p s, IndexedVector.ofPacked capacity (pairs.map Prod.fst) (pairs.map Prod.snd) = .ok p ∧
      pairs'.foldlM (fun v e => v.insert e.1 e.2) blank = .ok s ∧
      (∃ p' s', f.ftran p = .ok (p', f) ∧ f.ftran s = .ok (s', f) ∧ p'.Agree s') ∧
      (∃ p' s', f.btran p = .ok (p', f) ∧ f.btran s = .ok (s', f) ∧ p'.Agree s') ∧
      ∀ slot pivot, f.replace p slot pivot = f.replace s slot pivot := by
  have h := sound_of_reaches hreach
  obtain ⟨σ, hσ⟩ := h.exists_orders hvalid
  obtain ⟨F, hF⟩ := h.exists_factors
  obtain ⟨p, s, hp, hs, hsame⟩ :=
    IndexedVector.exists_sameValues hnodup hlt hperm hcap hblank
  refine ⟨p, s, hp, hs, ?_, ?_, h.replace_eq_of_sameValues hvalid hsame⟩
  · simp only [ftran_eq hvalid hF hσ]
    exact h.exists_agree hσ (covers_slots σ) hsame F.solve
  · simp only [btran_eq hvalid hF hσ]
    exact h.exists_agree hσ (covers_positions σ) hsame F.solveTransposed

/-- A basis of floating-point numbers with an update. -/
def rounded : List (Operation Float) :=
  [.setChainCapacity 2, .load ![![0, 0.2, 1], ![0.4, 1, -1], ![2, 0.3, 5]], .factor,
    .replace ⟨#[3, 0.5, 0], [2, 0], .packed⟩ 1 0.7]

theorem solve_eq_of_layout_rounded : ∃ (f : Factorization Float) (p s p' s' : IndexedVector Float),
    initial.run rounded = .ok f ∧ f.updates = 1 ∧
      IndexedVector.ofPacked 4 [2, 0, 1] [0.1, -0, 1 / 0] = .ok p ∧
      [(0, -0), (1, 1 / 0), (2, 0.1)].foldlM (fun v e => v.insert e.1 e.2)
        (IndexedVector.empty 4) = .ok s ∧
      f.ftran p = .ok (p', f) ∧ f.ftran s = .ok (s', f) ∧ p'.Agree s' ∧
      f.replace p 2 0.3 = f.replace s 2 0.3 := by
  have hrun : Except.isOk (do
      let f ← initial.run rounded
      if f.status ≠ .valid ∨ f.rows ≠ 3 ∨ f.updates ≠ 1 then throw .outOfRange
      return f : Except Fault (Factorization Float)) = true := by
    decide +kernel
  obtain ⟨_, hrun⟩ := exists_eq_ok_of_isOk hrun
  simp only [bind_eq_ok_iff, guard_eq_ok_iff, pure_eq_ok_iff, not_or, not_not] at hrun
  obtain ⟨f, hf, ⟨hvalid, hrows, hupdates⟩, rfl⟩ := hrun
  have hreach : Reaches (ofConfig Config.initial) f := reaches_of_run hf
  have hlt : ∀ e ∈ [(2, 0.1), (0, -0), (1, (1 / 0 : Float))], e.1 < f.rows := by simp [hrows]
  have hperm : [(0, -0), (1, 1 / 0), (2, (0.1 : Float))].Perm [(2, 0.1), (0, -0), (1, 1 / 0)] :=
    (List.perm_append_comm : ([(0, -0), (1, 1 / 0)] ++ [(2, 0.1)]).Perm _)
  obtain ⟨p, s, hp, hs, ⟨p', s', hp', hs', hagree⟩, -, hreplace⟩ :=
    solve_eq_of_layout hreach hvalid (by decide) hlt hperm (show _ ≤ 4 by omega) rfl
  exact ⟨f, p, s, p', s', hf, hupdates, hp, hs, hp', hs', hagree, hreplace 2 0.3⟩

end Factorization

end BasisLU
