import Mathlib.Data.List.Forall2
import BasisLU.Refusal
import BasisLU.Scatter

/-!
# Calls that succeed

When a reading succeeds (`Fault.read_eq_ok_iff`, `Fault.below_eq_ok_iff`), a pass over a list of
them (`mapM_eq_ok_iff`, `mapM_eq_ok_iff_forall`, `mapM_eq_ok`, `forM_eq_ok_iff`), a run of steps
(`exists_foldlM_eq_ok`), and the places of entries (`locate_eq_ok_iff`). A call that starts with
guards succeeds if every guard lets it pass and the rest succeeds (`guard_eq_ok_iff`), and one that
can be refused takes over what can only fault (`liftFault_eq_ok_iff`). How a call can fail is found
the same way (`bind_eq_error_iff`, `guard_eq_error_iff`, `Fault.read_eq_error_iff`,
`liftFault_eq_fault_iff`, `forM_range_eq_error_iff`, `eq_of_mapM_eq_error`).

Two calls are `Alike` if both fail for the same reason, or both succeed with results that are
related. They are so step by step (`Alike.bind`, `alike_bind_same`, `alike_guard`).
-/

namespace BasisLU

section Guard

variable {ε β : Type} {c : Prop} [Decidable c] {e : ε} {y : β}

theorem pure_eq_ok_iff {x : β} : (pure x : Except ε β) = .ok y ↔ x = y := by
  simp [pure, Except.pure]

theorem ok_bind {γ : Type} (x : β) (next : β → Except ε γ) : (.ok x >>= next) = next x := rfl

theorem guard_eq_ok_iff {next : Except ε β} :
    (if c then (throw e : Except ε PUnit) >>= fun _ => next else next) = .ok y ↔
      ¬c ∧ next = .ok y := by
  split <;> simp [*, throw, throwThe, MonadExceptOf.throw, bind, Except.bind]

theorem ite_error_eq_ok_iff {x : Except ε β} :
    (if c then x else .error e) = .ok y ↔ c ∧ x = .ok y := by
  split <;> simp [*]

theorem dite_throw_eq_ok_iff {x : c → Except ε β} :
    (if h : c then x h else throw e) = .ok y ↔ ∃ h, x h = .ok y := by
  split <;> simp [*, throw, throwThe, MonadExceptOf.throw]

theorem liftFault_ok (x : β) : (liftM (.ok x : Except Fault β) : Except Failure β) = .ok x := rfl

theorem liftFault_eq_ok_iff {x : Except Fault β} :
    (liftM x : Except Failure β) = .ok y ↔ x = .ok y := by
  cases x <;> simp [liftM, monadLift, MonadLift.monadLift, Except.mapError]

theorem liftRefusal_eq_ok_iff {x : Except Refusal β} :
    (liftM x : Except Failure β) = .ok y ↔ x = .ok y := by
  cases x <;> simp [liftM, monadLift, MonadLift.monadLift, Except.mapError]

/-- A sequence of two steps fails where one of them does. -/
theorem bind_eq_error_iff {γ : Type} {x : Except ε β} {next : β → Except ε γ} :
    (x >>= next) = .error e ↔ x = .error e ∨ ∃ y, x = .ok y ∧ next y = .error e := by
  cases x <;> simp [bind, Except.bind]

/-- A sequence that starts with a guard fails by the guard, or after it. -/
theorem guard_eq_error_iff {e' : ε} {next : Except ε β} :
    (if c then (throw e : Except ε PUnit) >>= fun _ => next else next) = .error e' ↔
      c ∧ e = e' ∨ ¬c ∧ next = .error e' := by
  split <;> simp [*, throw, throwThe, MonadExceptOf.throw, bind, Except.bind]

theorem liftFault_eq_fault_iff {x : Except Fault β} {cause : Fault} :
    (liftM x : Except Failure β) = .error (.fault cause) ↔ x = .error cause := by
  cases x <;> simp [liftM, monadLift, MonadLift.monadLift, Except.mapError]

/-- What can only fault is never refused. -/
theorem liftFault_ne_refused {x : Except Fault β} {reason : Refusal} :
    (liftM x : Except Failure β) ≠ .error (.refused reason) := by
  cases x <;> nofun

/-- A check that only refuses never faults. -/
theorem guard_ne_fault {reason : Refusal} {cause : Fault} :
    (if c then throw (.refused reason) else pure () : Except Failure Unit) ≠
      .error (.fault cause) := by
  split <;> nofun

theorem pure_ne_error {x : β} : (pure x : Except ε β) ≠ .error e := nofun

theorem exists_eq_ok_of_isOk {x : Except ε β} (h : x.isOk = true) : ∃ y, x = .ok y := by
  cases x with
  | ok y => exact ⟨y, rfl⟩
  | error e => cases h

/-- What follows a call matters only for its result. -/
theorem bind_congr_of_eq_ok {γ : Type} {x : Except ε β} {next next' : β → Except ε γ}
    (h : ∀ y, x = .ok y → next y = next' y) : (x >>= next) = x >>= next' := by
  cases x with
  | ok y => exact h y rfl
  | error e => rfl

end Guard

theorem Fault.read_eq_ok_iff {β : Type} {xs : Array β} {i : Nat} {x : β} :
    Fault.read xs i = .ok x ↔ xs[i]? = some x := by
  unfold Fault.read
  split <;> simp [*]

theorem Fault.below_eq_ok_iff {n i : Nat} {k : Fin n} : Fault.below n i = .ok k ↔ i = k.val := by
  unfold Fault.below
  split
  · simp [Fin.ext_iff]
  · exact iff_of_false nofun fun h => ‹¬i < n› (h ▸ k.isLt)

theorem Fault.read_eq_error_iff {β : Type} {xs : Array β} {i : Nat} {cause : Fault} :
    Fault.read xs i = .error cause ↔ xs.size ≤ i ∧ cause = .outOfRange := by
  rcases Nat.lt_or_ge i xs.size with h | h
  · simp [Fault.read_of_lt h, Nat.not_le.2 h]
  · simp [Fault.read_of_le h, h, eq_comm]

theorem Fault.below_eq_error_iff {n i : Nat} {cause : Fault} :
    Fault.below n i = .error cause ↔ n ≤ i ∧ cause = .outOfRange := by
  rcases Nat.lt_or_ge i n with h | h
  · simp [Fault.below_of_lt h, Nat.not_le.2 h]
  · simp [Fault.below, Nat.not_lt.2 h, h, eq_comm]

/-- Both fail for the same reason, or both succeed with results that are related. -/
inductive Alike {ε β γ : Type} (related : β → γ → Prop) : Except ε β → Except ε γ → Prop where
  | error (e : ε) : Alike related (.error e) (.error e)
  | ok {x : β} {y : γ} : related x y → Alike related (.ok x) (.ok y)

section Alike

variable {ε β γ δ : Type} {related : β → γ → Prop}

theorem Alike.bind {β' γ' : Type} {related' : β' → γ' → Prop} {x : Except ε β} {y : Except ε γ}
    (h : Alike related x y) {next : β → Except ε β'} {next' : γ → Except ε γ'}
    (hnext : ∀ a b, related a b → Alike related' (next a) (next' b)) :
    Alike related' (x >>= next) (y >>= next') := by
  cases h with
  | error e => exact .error e
  | ok hab => exact hnext _ _ hab

/-- After the same call, only what follows its result has to be alike. -/
theorem alike_bind_same {x : Except ε δ} {next : δ → Except ε β} {next' : δ → Except ε γ}
    (h : ∀ y, x = .ok y → Alike related (next y) (next' y)) :
    Alike related (x >>= next) (x >>= next') := by
  cases x with
  | ok y => exact h y rfl
  | error e => exact .error e

/-- The same guard lets both pass, or neither. -/
theorem alike_guard {c : Prop} [Decidable c] {e : ε} {x : Except ε β} {y : Except ε γ}
    (h : ¬c → Alike related x y) :
    Alike related (if c then (throw e : Except ε PUnit) >>= fun _ => x else x)
      (if c then (throw e : Except ε PUnit) >>= fun _ => y else y) := by
  by_cases hc : c
  · rw [if_pos hc, if_pos hc]
    exact .error e
  · rw [if_neg hc, if_neg hc]
    exact h hc

end Alike

theorem Alike.liftFault {β γ : Type} {related : β → γ → Prop} {x : Except Fault β}
    {y : Except Fault γ} (h : Alike related x y) :
    Alike related (liftM x : Except Failure β) (liftM y) := by
  cases h with
  | error cause => exact .error (Failure.fault cause)
  | ok hab => exact .ok hab

theorem Alike.liftRefusal {β γ : Type} {related : β → γ → Prop} {x : Except Refusal β}
    {y : Except Refusal γ} (h : Alike related x y) :
    Alike related (liftM x : Except Failure β) (liftM y) := by
  cases h with
  | error reason => exact .error (Failure.refused reason)
  | ok hab => exact .ok hab

section MapM

variable {ε β γ : Type} {f : β → Except ε γ}

/-- A pass succeeds with the results of its steps. -/
theorem mapM_eq_ok_iff {l : List β} {l' : List γ} :
    l.mapM f = .ok l' ↔ List.Forall₂ (fun x y => f x = .ok y) l l' := by
  induction l generalizing l' with
  | nil =>
    rw [List.mapM_nil, List.forall₂_nil_left_iff]
    exact ⟨fun h => (Except.ok.inj h).symm, fun h => h ▸ rfl⟩
  | cons x l ih =>
    rw [List.mapM_cons, bind_eq_ok_iff, List.forall₂_cons_left_iff]
    refine exists_congr fun y => ?_
    rw [bind_eq_ok_iff]
    constructor
    · intro h
      obtain ⟨hy, ys, hys, hl⟩ := h
      exact ⟨ys, hy, ih.1 hys, (Except.ok.inj hl).symm⟩
    · intro h
      obtain ⟨ys, hy, hys, rfl⟩ := h
      exact ⟨hy, ys, ih.2 hys, rfl⟩

/-- A pass succeeds with a map if each step succeeds, under a condition, with its value. -/
theorem mapM_eq_ok_iff_forall {p : β → Prop} {g : β → γ} :
    ∀ {l : List β} {l' : List γ}, (∀ x ∈ l, ∀ y, f x = .ok y ↔ p x ∧ y = g x) →
      (l.mapM f = .ok l' ↔ (∀ x ∈ l, p x) ∧ l' = l.map g)
  | [], l', _ => by
    rw [List.mapM_nil, pure_eq_ok_iff]
    exact ⟨fun h => ⟨nofun, h.symm⟩, fun h => h.2.symm⟩
  | x :: l, l', h => by
    have ih (ys : List γ) : l.mapM f = .ok ys ↔ (∀ x ∈ l, p x) ∧ ys = l.map g :=
      mapM_eq_ok_iff_forall fun x hx => h x (List.mem_cons_of_mem _ hx)
    simp only [List.mapM_cons, bind_eq_ok_iff, pure_eq_ok_iff, h x List.mem_cons_self, ih,
      List.forall_mem_cons, List.map_cons]
    constructor
    · intro h
      obtain ⟨_, ⟨hx, rfl⟩, _, ⟨hl, rfl⟩, rfl⟩ := h
      exact ⟨⟨hx, hl⟩, rfl⟩
    · intro h
      obtain ⟨⟨hx, hl⟩, rfl⟩ := h
      exact ⟨_, ⟨hx, rfl⟩, _, ⟨hl, rfl⟩, rfl⟩

theorem mapM_eq_ok {g : β → γ} {l : List β} (h : ∀ x ∈ l, f x = .ok (g x)) :
    l.mapM f = .ok (l.map g) :=
  mapM_eq_ok_iff.2 (List.forall₂_map_right_iff.2 (List.forall₂_same.2 h))

theorem exists_mapM_eq_ok :
    ∀ {l : List β}, (∀ x ∈ l, ∃ y, f x = .ok y) → ∃ l', l.mapM f = .ok l'
  | [], _ => ⟨[], rfl⟩
  | x :: l, h => by
    obtain ⟨y, hy⟩ := h x List.mem_cons_self
    obtain ⟨l', hl'⟩ := exists_mapM_eq_ok fun x hx => h x (List.mem_cons_of_mem _ hx)
    simp only [List.mapM_cons, bind_eq_ok_iff, pure_eq_ok_iff]
    exact ⟨y :: l', y, hy, l', hl', rfl⟩

/-- A pass whose steps can only fail in one way fails in that way. -/
theorem eq_of_mapM_eq_error {e : ε} :
    ∀ {l : List β}, (∀ x ∈ l, ∀ e', f x = .error e' → e' = e) →
      ∀ e', l.mapM f = .error e' → e' = e
  | [], _, _, h => nomatch h
  | x :: l, hall, e', h => by
    rw [List.mapM_cons] at h
    cases hx : f x with
    | error e'' =>
      rw [hx] at h
      cases h
      exact hall x List.mem_cons_self _ hx
    | ok y =>
      rw [hx, ok_bind] at h
      cases hl : l.mapM f with
      | error e'' =>
        rw [hl] at h
        cases h
        exact eq_of_mapM_eq_error (fun x hx => hall x (List.mem_cons_of_mem _ hx)) _ hl
      | ok ys =>
        rw [hl] at h
        cases h

/-- Every step of a pass that succeeds does. -/
theorem exists_eq_ok_of_mapM {l : List β} {ys : List γ} (h : l.mapM f = .ok ys) :
    ∀ x ∈ l, ∃ y, f x = .ok y := by
  induction mapM_eq_ok_iff.1 h with
  | nil => exact nofun
  | cons hxy _ ih =>
    exact List.forall_mem_cons.2 ⟨⟨_, hxy⟩, ih (mapM_eq_ok_iff.2 ‹_›)⟩

/-- What is done with each result may be done with all of them afterwards. -/
theorem map_mapM {δ : Type} (g : γ → δ) :
    ∀ l : List β, List.map g <$> l.mapM f = l.mapM fun x => g <$> f x
  | [] => rfl
  | x :: l => by
    rw [List.mapM_cons, List.mapM_cons, ← map_mapM g l]
    cases f x with
    | error e => rfl
    | ok y => cases l.mapM f <;> rfl

/-- A pass depends only on what its step does with the members of the list. -/
theorem mapM_congr {g : β → Except ε γ} :
    ∀ {l : List β}, (∀ x ∈ l, f x = g x) → l.mapM f = l.mapM g
  | [], _ => rfl
  | x :: l, h => by
    rw [List.mapM_cons, List.mapM_cons, h x List.mem_cons_self,
      mapM_congr fun x hx => h x (List.mem_cons_of_mem _ hx)]

/-- Two passes over a list have the same results if their steps do. -/
theorem eq_of_mapM {g : β → Except ε γ} : ∀ {l : List β} {ys zs : List γ},
    l.mapM f = .ok ys → l.mapM g = .ok zs →
      (∀ x ∈ l, ∀ y z, f x = .ok y → g x = .ok z → z = y) → zs = ys
  | [], _, _, hf, hg, _ => by
    cases hf
    cases hg
    rfl
  | x :: l, _, _, hf, hg, h => by
    rw [List.mapM_cons] at hf hg
    simp only [bind_eq_ok_iff, pure_eq_ok_iff] at hf hg
    obtain ⟨y, hy, ys, hys, rfl⟩ := hf
    obtain ⟨z, hz, zs, hzs, rfl⟩ := hg
    rw [h x List.mem_cons_self y z hy hz,
      eq_of_mapM hys hzs fun w hw => h w (List.mem_cons_of_mem _ hw)]

/-- A pass that keeps no results succeeds if each step does. -/
theorem forM_eq_ok_iff {check : β → Except ε Unit} {l : List β} :
    l.forM check = .ok () ↔ ∀ x ∈ l, check x = .ok () := by
  induction l with
  | nil => exact iff_of_true rfl nofun
  | cons x l ih =>
    have hcons : (x :: l).forM check = (check x >>= fun _ => l.forM check) := rfl
    rw [hcons, bind_eq_ok_iff, List.forall_mem_cons, ← ih]
    exact ⟨fun ⟨_, h⟩ => h, fun h => ⟨(), h⟩⟩

/-- A pass that keeps no results fails where a step does after steps that succeed. -/
theorem forM_range_eq_error_iff {check : Nat → Except ε Unit} {e : ε} : ∀ {n : Nat},
    (List.range n).forM check = .error e ↔
      ∃ i < n, (∀ j < i, check j = .ok ()) ∧ check i = .error e
  | 0 => iff_of_false nofun nofun
  | n + 1 => by
    have hlast : [n].forM check = check n := by
      show (check n >>= fun _ => pure ()) = check n
      cases check n <;> rfl
    have hrange : (List.range (n + 1)).forM check =
        ((List.range n).forM check >>= fun _ => check n) := by
      rw [List.range_succ, ← hlast]
      exact List.forM_append
    rw [hrange, bind_eq_error_iff, forM_range_eq_error_iff]
    constructor
    · rintro (⟨i, hi, h⟩ | ⟨⟨⟩, hok, h⟩)
      · exact ⟨i, by omega, h⟩
      · exact ⟨n, by omega, fun j hj => forM_eq_ok_iff.1 hok j (List.mem_range.2 hj), h⟩
    · rintro ⟨i, hi, hok, h⟩
      rcases Nat.lt_succ_iff_lt_or_eq.1 hi with hi | rfl
      · exact .inl ⟨i, hi, hok, h⟩
      · exact .inr ⟨(), forM_eq_ok_iff.2 fun j hj => hok j (List.mem_range.1 hj), h⟩

/-- A run of steps succeeds if each does where a property holds that the steps keep. -/
theorem exists_foldlM_eq_ok {step : γ → β → Except ε γ} {p : γ → Prop} :
    ∀ {l : List β} {s : γ}, p s → (∀ x ∈ l, ∀ s, p s → ∃ s', step s x = .ok s' ∧ p s') →
      ∃ s', l.foldlM step s = .ok s' ∧ p s'
  | [], s, hs, _ => ⟨s, rfl, hs⟩
  | x :: l, s, hs, h => by
    obtain ⟨s₁, hs₁, hp⟩ := h x List.mem_cons_self s hs
    obtain ⟨s', hs', hp'⟩ := exists_foldlM_eq_ok hp fun x hx => h x (List.mem_cons_of_mem _ hx)
    refine ⟨s', ?_, hp'⟩
    rw [List.foldlM_cons, bind_eq_ok_iff]
    exact ⟨s₁, hs₁, hs'⟩

end MapM

/-- Entries located are the same entries. -/
theorem locate_eq_ok_iff {β : Type} {n : Nat} {entries : List (Nat × β)}
    {placed : List (Fin n × β)} :
    locate n entries = .ok placed ↔ entries = placed.map fun e => (e.1.val, e.2) := by
  rw [locate, mapM_eq_ok_iff, ← List.forall₂_eq_eq_eq, List.forall₂_map_right_iff]
  refine iff_of_eq (congrArg (List.Forall₂ · entries placed) (funext₂ fun e p => propext ?_))
  rw [bind_eq_ok_iff]
  constructor
  · intro h
    obtain ⟨k, hk, hp⟩ := h
    rw [← Except.ok.inj hp, ← Fault.below_eq_ok_iff.1 hk]
  · rintro rfl
    exact ⟨p.1, Fault.below_eq_ok_iff.2 rfl, rfl⟩

/-- Entries that are in range can be located. -/
theorem exists_locate {β : Type} {n : Nat} {entries : List (Nat × β)}
    (h : ∀ e ∈ entries, e.1 < n) : ∃ placed, locate n entries = .ok placed :=
  ⟨entries.pmap (fun e he => (⟨e.1, he⟩, e.2)) h, locate_eq_ok_iff.2 (by simp [List.map_pmap])⟩

/-- What is at a place in the end is the last entry for it. -/
theorem get_scatter {β : Type} {n : Nat} (r : Fin n) :
    ∀ (entries : List (Fin n × β)) (x : Vector β n), (scatter entries x).get r =
      (entries.reverse.find? fun e => e.1 = r).elim (x.get r) Prod.snd
  | [], _ => rfl
  | e :: entries, x => by
    rw [scatter_cons, get_scatter r entries, List.reverse_cons, List.find?_append]
    cases entries.reverse.find? fun e => e.1 = r with
    | some e' => rfl
    | none =>
      rw [Option.none_or, List.find?_singleton]
      by_cases he : e.1 = r
      · rw [if_pos (decide_eq_true he), ← he]
        exact Vector.getElem_set_self _
      · rw [if_neg (by simpa using he)]
        exact Vector.getElem_set_ne _ _ fun h => he (Fin.ext h)

end BasisLU
