import ScalesOS.Scheduler

/-! What `k_proc_process_sleep` stores and returns. The deadline is `t0+d` in seconds and
microseconds; the comparison at the end takes the microseconds of the present for its seconds
where the seconds are to be equal. -/
namespace ScalesOS

/-- The end of `k_proc_process_sleep`, after the process runs again at `ticks`. `time` is the
deadline in its local variables. -/
def sleepReturn (time : ℕ × ℕ) (ticks : ℕ) : ℕ :=
  let newSeconds := ticks/MICROSECONDS_PER_SECOND
  let newMicroseconds := ticks%MICROSECONDS_PER_SECOND
  if time.1 > newSeconds ∨ (time.1 = newMicroseconds ∧ time.2 > newMicroseconds) then 1 else 0

/-- A time in microseconds, as seconds and microseconds. -/
def splitTime (t : ℕ) : ℕ × ℕ := (t/MICROSECONDS_PER_SECOND,t%MICROSECONDS_PER_SECOND)

theorem sleepDeadline_eq {t d : ℕ} (h : t+d < W64) : Sched.sleepDeadline t d = splitTime (t+d) := by
  have hsum : t%1000000+d%1000000 ≤ t+d := Nat.add_le_add (Nat.mod_le _ _) (Nat.mod_le _ _)
  have hseconds : t/1000000+d/1000000 ≤ t+d :=
    Nat.add_le_add (Nat.div_le_self _ _) (Nat.div_le_self _ _)
  have hmicro : (t%MICROSECONDS_PER_SECOND+d%MICROSECONDS_PER_SECOND)%W64 = t%1000000+d%1000000 :=
    Nat.mod_eq_of_lt (hsum.trans_lt h)
  have hsec : (t/MICROSECONDS_PER_SECOND+d/MICROSECONDS_PER_SECOND)%W64 = t/1000000+d/1000000 :=
    Nat.mod_eq_of_lt (hseconds.trans_lt h)
  simp only [Sched.sleepDeadline,deadline,splitTime,hmicro,hsec]
  by_cases hc : MICROSECONDS_PER_SECOND ≤ t%1000000+d%1000000
  · rw [if_pos hc]
    simp only [MICROSECONDS_PER_SECOND] at hc ⊢
    -- the microseconds carry
    rw [Nat.mod_eq_of_lt (by omega)]
    exact Prod.ext (by dsimp only; omega) (by dsimp only; omega)
  · rw [if_neg hc]
    simp only [MICROSECONDS_PER_SECOND] at hc ⊢
    exact Prod.ext (by dsimp only; omega) (by dsimp only; omega)

theorem insert_node {q sleep : SleepQueue} {process new : ℕ} {time : ℕ × ℕ}
    (h : q.insert process time = .ok (new,sleep)) :
    ((sleep.nodes new).seconds,(sleep.nodes new).microseconds) = time := by
  rw [SleepQueue.insert] at h
  split at h
  · obtain ⟨rfl,rfl⟩ := Prod.mk.inj (Except.ok.inj h)
    simp
  · obtain ⟨⟨prev,node⟩,-,h⟩ := Result.bind_eq_ok.mp h
    obtain ⟨rfl,rfl⟩ := Prod.mk.inj (Except.ok.inj h)
    have hset : ∀ (q : SleepQueue) (n : ℕ) (next : Option ℕ) (a : ℕ),
        ((q.setNext n next).nodes a).seconds = (q.nodes a).seconds ∧
          ((q.setNext n next).nodes a).microseconds = (q.nodes a).microseconds := by
      intro q n next a
      by_cases ha : a = n
      · subst ha
        simp [SleepQueue.setNext]
      · simp [SleepQueue.setNext,Function.update_of_ne ha]
    simp [hset]

/-- The node that the sleeper of `d` microseconds at `t0` leaves in the queue has the deadline
`t0+d`, and the call that runs on at `t1` returns 1 exactly if it was woken before. -/
def SleepsRightly (s : Sched) (t0 d t1 : ℕ) : Prop :=
  (∀ new sleep, s.sleep.insert s.current (Sched.sleepDeadline t0 d) = .ok (new,sleep) →
    ((sleep.nodes new).seconds,(sleep.nodes new).microseconds) = splitTime (t0+d)) ∧
  (sleepReturn (Sched.sleepDeadline t0 d) t1 = 1 ↔ t1 < t0+d)

/-- Where the comparison at the end comes out right: if the seconds of the deadline and of the
present are the same and its microseconds are still to come, then the number of seconds has to
be the present's number of microseconds as well; if the seconds have passed, it has not. -/
def ComparesRightly (time present : ℕ × ℕ) : Prop :=
  (time.1 = present.1 → present.2 < time.2 → present.2 = time.1) ∧
    (time.1 < present.1 → present.2 < time.2 → present.2 ≠ time.1)

theorem lt_iff_split (t1 t : ℕ) : t1 < t ↔ (splitTime t1).1 < (splitTime t).1 ∨
    ((splitTime t1).1 = (splitTime t).1 ∧ (splitTime t1).2 < (splitTime t).2) := by
  simp only [splitTime,MICROSECONDS_PER_SECOND]
  omega

theorem sleep_right_iff {t0 d : ℕ} (h : t0+d < W64) (s : Sched) (t1 : ℕ) :
    SleepsRightly s t0 d t1 ↔ ComparesRightly (splitTime (t0+d)) (splitTime t1) := by
  have hstored :
    ∀ new sleep, s.sleep.insert s.current (Sched.sleepDeadline t0 d) = .ok (new,sleep) →
      ((sleep.nodes new).seconds,(sleep.nodes new).microseconds) = splitTime (t0+d) :=
    fun _ _ hret => (insert_node hret).trans (sleepDeadline_eq h)
  rw [SleepsRightly,sleepDeadline_eq h,and_iff_right (sleepDeadline_eq h ▸ hstored),lt_iff_split,
    ComparesRightly]
  have hreturn : sleepReturn (splitTime (t0+d)) t1 = 1 ↔ (splitTime t1).1 < (splitTime (t0+d)).1 ∨
      ((splitTime (t0+d)).1 = (splitTime t1).2 ∧ (splitTime t1).2 < (splitTime (t0+d)).2) := by
    change (if _ then 1 else 0) = 1 ↔ _
    split
    · exact iff_of_true rfl ‹_›
    · exact iff_of_false (by decide) ‹_›
  rw [hreturn]
  omega

/-- At time 0 a sleep of a second and a half, woken after half a second. -/
theorem sleep_right_iff_early : SleepsRightly Sched.boot 0 1500000 500000 :=
  (sleep_right_iff (by decide) Sched.boot 500000).mpr ⟨fun h => absurd h (by decide),fun h =>
    absurd h (by decide)⟩

/-- Woken after 400 of 500 milliseconds the call returns 0. -/
theorem early_wakeup_unnoticed : ¬∀ (s : Sched) (t0 d t1 : ℕ), t0+d < W64 →
    SleepsRightly s t0 d t1 := by
  intro h
  have hright := (h Sched.boot 0 500000 400000 (by decide)).2
  exact absurd (hright.mpr (by decide)) (by decide)

end ScalesOS
