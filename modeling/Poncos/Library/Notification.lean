import Poncos.Library.Transition

/-!
A thread that sleeps on a condition variable and is woken by notifications only.  A
notification reaches the thread if it sleeps, and is lost otherwise.  What a thread
waits for becomes true before the notification is sent; a wake-up is not lost if the
notification is still to come at that time.
-/

namespace Poncos.Library.Transition.System

open Poncos.Library.Execution

variable {σ ι : Type}

/-- The thread inside its wait, the label of its return from the wait, and the labels
of the notifications. -/
structure Sleeper (σ ι : Type) where
  asleep : σ → Bool
  wakes : ι → Bool
  notifies : ι → Bool

/-- `M` without spurious wake-ups, together with whether the sleeper was notified. -/
def notified (M : System σ ι) (p : Sleeper σ ι) : System (σ × Bool) ι where
  Init s := M.Init s.1 ∧ s.2 = false
  step s i := do
    require (p.wakes i = true → s.2 = true)
    let s' ← M.step s.1 i
    .ok (s', if p.wakes i then false else s.2 || (p.notifies i && p.asleep s.1))

/-- The discipline behind a wait.  The thread goes to sleep only while it has to wait;
a step that ends the wait leaves a notification due, and only sending it settles that. -/
structure Sleeper.Served (p : Sleeper σ ι) (M : System σ ι) (Ready Due : σ → Prop) : Prop where
  init : ∀ s, M.Init s → p.asleep s = false
  wakes : ∀ s i s', M.Reachable s → M.step s i = .ok s' → p.wakes i = true →
    p.asleep s' = false
  sleeps : ∀ s i s', M.Reachable s → M.step s i = .ok s' → p.asleep s = false → ¬ Ready s'
  others : ∀ s i s', M.Reachable s → M.step s i = .ok s' → p.asleep s = true →
    p.wakes i = false → (Ready s' → Ready s ∨ Due s') ∧ (Due s → p.notifies i = true ∨ Due s')

variable {M : System σ ι} {p : Sleeper σ ι} {s s' : σ × Bool} {i : ι}

theorem notified_step (h : (M.notified p).step s i = .ok s') :
    (p.wakes i = true → s.2 = true) ∧ M.step s.1 i = .ok s'.1 ∧
      s'.2 = if p.wakes i then false else s.2 || (p.notifies i && p.asleep s.1) := by
  simp only [notified, bind_eq_ok, require_eq_ok] at h
  obtain ⟨_, hwakes, t, hstep, h⟩ := h
  cases h
  exact ⟨hwakes, hstep, rfl⟩

theorem notified_reachable (hs : (M.notified p).Reachable s) : M.Reachable s.1 := by
  refine hs.invariant (P := fun s => M.Reachable s.1) ?_ ?_
  · intro s hstart
    exact .init hstart.1
  · intro s i s' _ hreach _ hstep
    exact .step hreach trivial (notified_step hstep).2.1

theorem notified_startingAt {s₀ : σ} {notified : Bool}
    (hs : ((M.notified p).startingAt (s₀, notified)).Reachable s) :
    (M.startingAt s₀).Reachable s.1 := by
  refine hs.invariant (P := fun s => (M.startingAt s₀).Reachable s.1) ?_ ?_
  · rintro s rfl
    exact .init rfl
  · intro s i s' _ hreach _ hstep
    exact .step hreach trivial (notified_step hstep).2.1

theorem notified_step_ok {t : σ} (hstep : M.step s.1 i = .ok t)
    (hwakes : p.wakes i = true → s.2 = true) : ∃ s', (M.notified p).step s i = .ok s' := by
  refine ⟨(t, if p.wakes i then false else s.2 || (p.notifies i && p.asleep s.1)), ?_⟩
  simp only [notified, require_of hwakes, hstep]
  rfl

/-- Where the sleeper lets no step happen, only its own return is left, and it was not
notified. -/
theorem notified_step_none {t : σ} (h : ∀ s', (M.notified p).step s i ≠ .ok s')
    (hstep : M.step s.1 i = .ok t) : p.wakes i = true ∧ s.2 = false := by
  rcases Classical.em (p.wakes i = true → s.2 = true) with hwakes | hwakes
  · obtain ⟨s', hs'⟩ := notified_step_ok hstep hwakes
    exact absurd hs' (h s')
  · simpa using hwakes

/-- If a notification lowers the rank by more than what a wake-up adds to it, the rank
falls with every step once the amount is credited to the sleeper that was notified. -/
theorem notified_rank_lt {rank : σ → Nat} {cost : Nat}
    (hnotifies : p.wakes i = true → p.notifies i = false)
    (hrank : ∀ t, M.step s.1 i = .ok t →
      rank t + (if p.notifies i then cost + 1 else 1) ≤
        rank s.1 + if p.wakes i then cost else 0)
    (h : (M.notified p).step s i = .ok s') :
    rank s'.1 + (if s'.2 then cost else 0) < rank s.1 + if s.2 then cost else 0 := by
  obtain ⟨hwakes, hstep, hflag⟩ := notified_step h
  have hrank := hrank s'.1 hstep
  rw [hflag]
  cases hwake : p.wakes i with
  | true =>
      simp [hwake, hnotifies hwake, hwakes hwake] at hrank ⊢
      omega
  | false =>
      cases hnotify : p.notifies i with
      | true =>
          simp [hwake, hnotify] at hrank ⊢
          split <;> split <;> omega
      | false =>
          simp [hwake, hnotify] at hrank ⊢
          omega

/-- A thread that sleeps although it need not has been notified, or a notification is
due. -/
theorem Sleeper.Served.ready {Ready Due : σ → Prop} (h : p.Served M Ready Due)
    (hs : (M.notified p).Reachable s) (hasleep : p.asleep s.1 = true) (hready : Ready s.1) :
    s.2 = true ∨ Due s.1 := by
  refine hs.invariant (P := fun s => p.asleep s.1 = true → Ready s.1 → s.2 = true ∨ Due s.1)
    ?_ ?_ hasleep hready
  · intro s hstart hasleep
    rw [h.init s.1 hstart.1] at hasleep
    cases hasleep
  · intro s i s' hs ih _ hstep hasleep' hready'
    obtain ⟨_, hstep, hflag⟩ := notified_step hstep
    have hreach := notified_reachable hs
    cases hwakes : p.wakes i with
    | true =>
        rw [h.wakes _ _ _ hreach hstep hwakes] at hasleep'
        cases hasleep'
    | false =>
        rw [hwakes] at hflag
        cases hasleep : p.asleep s.1 with
        | false => exact absurd hready' (h.sleeps _ _ _ hreach hstep hasleep)
        | true =>
            have hothers := h.others _ _ _ hreach hstep hasleep hwakes
            rcases hothers.1 hready' with hready | hdue
            · rcases ih hasleep hready with hbefore | hdue
              · exact .inl (by simp [hflag, hbefore])
              · rcases hothers.2 hdue with hnotifies | hdue
                · exact .inl (by simp [hflag, hnotifies, hasleep])
                · exact .inr hdue
            · exact .inr hdue

end Poncos.Library.Transition.System
