import Psync.FallbackModel

/-! What a wake of the fallback futex is worth. It holds the lock of its slot from its test of the flag to
its end, so that nobody falls asleep in the slot meanwhile, and who is woken up cannot go on. Whether
enough sleepers become runnable is then decided by the state in which the lock is taken. -/

namespace Psync.Fallback

open Concurrency

set_option linter.unusedSectionVars false

variable {Tid : Type*} [DecidableEq Tid] [Fintype Tid]

/-- The slot whose lock a thread at this position holds, unless it is asleep. -/
def Pc.locks : Pc → Option Slot
  | .announce w | .compare w | .sleep w => some (hashAddress w.addr)
  | .clear addr _ | .release addr _ => some (hashAddress addr)
  | .wakeTest addr _ | .wakeCond addr _ | .wakeRelease addr _ => some (hashAddress addr)
  | _ => none

/-- The thread that takes a step. -/
def Act.actor : Act Tid → Tid
  | .step t _ | .sleep t | .ret t _ | .wake t _ => t

variable {s s' u u' : State Tid} {t v : Tid} {a : Act Tid} {m m' : Mem Tid} {pc pc' pc'' : Pc} {slot : Slot}
  {addr : Addr} {count : I32} {res : Bool} {ts : Finset Tid}

/-! ### Steps -/

/-- What a step of the code does to the locks and the flags. -/
inductive Effect (t : Tid) (m : Mem Tid) (pc : Pc) : Mem Tid → Pc → Prop
  | outside {m' : Mem Tid} {pc' : Pc} (before : pc.locks = none) (after : pc'.locks = none)
      (hlock : m'.lock = m.lock) (hwaiting : m'.waiting = m.waiting) : Effect t m pc m' pc'
  | acquire {pc' : Pc} {slot : Slot} (before : pc.locks = none) (after : pc'.locks = some slot)
      (hfree : m.lock slot = none) : Effect t m pc (m.setLock slot (some t)) pc'
  | inside {m' : Mem Tid} {pc' : Pc} {slot : Slot} (before : pc.locks = some slot)
      (after : pc'.locks = some slot) (hlock : m'.lock = m.lock)
      (hwaiting : ∀ other, other ≠ slot → m'.waiting other = m.waiting other) : Effect t m pc m' pc'
  | release {pc' : Pc} {slot : Slot} (before : pc.locks = some slot) (after : pc'.locks = none) :
      Effect t m pc (m.setLock slot none) pc'

theorem Effect.of_acquire (h : Fallback.acquire t slot m pc' = some (m', pc'')) (before : pc.locks = none)
    (after : pc'.locks = some slot) : Effect t m pc m' pc'' := by
  simp only [Fallback.acquire, Option.ite_none_right_eq_some, Option.some.injEq, Prod.mk.injEq] at h
  obtain ⟨hfree, rfl, rfl⟩ := h
  exact .acquire before after hfree

theorem effect_of_run (h : run t m pc = some (m', pc')) : Effect t m pc m' pc' := by
  cases pc with
  | acquire w => exact .of_acquire h rfl rfl
  | reacquire w res => exact .of_acquire h rfl rfl
  | wakeAcquire addr count => exact .of_acquire h rfl rfl
  | announce w =>
      cases h
      exact .inside rfl rfl rfl fun other hne => Function.update_of_ne hne ..
  | compare w =>
      cases h
      have hlocks : (Pc.compare w).locks = some (hashAddress w.addr) := rfl
      refine .inside hlocks ?_ rfl fun _ _ => rfl
      split_ifs <;> rfl
  | clear addr result =>
      cases h
      exact .inside rfl rfl rfl fun other hne => Function.update_of_ne hne ..
  | wakeTest addr count =>
      cases h
      have hlocks : (Pc.wakeTest addr count).locks = some (hashAddress addr) := rfl
      refine .inside hlocks ?_ rfl fun _ _ => rfl
      split_ifs <;> rfl
  | release addr result =>
      cases h
      exact .release rfl rfl
  | wakeRelease addr count =>
      cases h
      exact .release rfl rfl
  | _ => cases h

theorem effect_of_step {l : Label} (h : step t l m pc = some (m', pc')) : Effect t m pc m' pc' := by
  cases l with
  | run => exact effect_of_run (by simpa only [step] using h)
  | _ =>
      cases pc with
      | idle result =>
          cases h
          exact .outside rfl rfl rfl rfl
      | _ => cases h

/-- What one step can do. -/
inductive Transition (s : State Tid) : Act Tid → State Tid → Prop
  | step {t : Tid} {l : Label} {m : Mem Tid} {pc : Pc} (awake : s.asleep t = none)
      (hstep : step t l s.mem (s.thread t) = some (m, pc)) : Transition s (.step t l) (s.move t m pc)
  | sleep {t : Tid} {w : Wait} (awake : s.asleep t = none) (hpc : s.thread t = .sleep w) :
      Transition s (.sleep t) (sleepOn s t w.addr)
  | ret {t : Tid} {w : Wait} {timeout : Bool} (hasleep : s.asleep t ≠ none)
      (hpc : s.thread t = .sleep w) : Transition s (.ret t timeout) (resume s (!timeout) {t})
  | wake {t : Tid} {addr : Addr} {count : I32} {ts : Finset Tid} (hpc : s.thread t = .wakeCond addr count)
      (chosen : Chosen (woken count) (sleepersOf s (hashAddress addr)) ts) :
      Transition s (.wake t ts) ((resume s true ts).move t s.mem (.wakeRelease addr count))

theorem transition_of_next (h : (machine Tid).next s a = some s') : Transition s a s' := by
  change Fallback.next s a = some s' at h
  cases a with
  | step t l =>
      simp only [next, Option.ite_none_right_eq_some, Option.map_eq_some_iff] at h
      obtain ⟨awake, ⟨m, pc⟩, hstep, rfl⟩ := h
      exact .step awake hstep
  | sleep t =>
      simp only [next] at h
      split at h
      · rename_i w hpc
        simp only [Option.ite_none_right_eq_some, Option.some.injEq] at h
        obtain ⟨awake, rfl⟩ := h
        exact .sleep awake hpc
      · cases h
  | ret t timeout =>
      simp only [next] at h
      split at h
      · rename_i w hpc
        simp only [Option.ite_none_right_eq_some, Option.some.injEq] at h
        obtain ⟨⟨hasleep, -⟩, rfl⟩ := h
        exact .ret hasleep hpc
      · cases h
  | wake t ts =>
      simp only [next] at h
      split at h
      · rename_i addr count hpc
        simp only [Option.ite_none_right_eq_some, Option.some.injEq] at h
        obtain ⟨chosen, rfl⟩ := h
        exact .wake hpc chosen
      · cases h

theorem next_of_wakeAcquire (hpc : s.thread t = .wakeAcquire addr count)
    (h : (machine Tid).next s (.step t .run) = some s') :
    s.asleep t = none ∧ s' = s.move t (s.mem.setLock (hashAddress addr) (some t)) (.wakeTest addr count) := by
  cases transition_of_next h with
  | step awake hstep =>
      rw [hpc] at hstep
      simp only [step, run, acquire, Option.ite_none_right_eq_some, Option.some.injEq, Prod.mk.injEq] at hstep
      obtain ⟨-, rfl, rfl⟩ := hstep
      exact ⟨awake, rfl⟩

/-- The test of the flag. -/
theorem next_of_wakeTest (hpc : s.thread a.actor = .wakeTest addr count)
    (h : (machine Tid).next s a = some s') :
    s' = s.move a.actor s.mem (if s.mem.waiting (hashAddress addr) = true then .wakeCond addr count
      else .wakeRelease addr count) := by
  cases transition_of_next h with
  | @step t l m pc awake hstep =>
      rw [show s.thread t = .wakeTest addr count from hpc] at hstep
      cases l with
      | run =>
          cases hstep
          rfl
      | _ => cases hstep
  | sleep awake hpc' => cases hpc.symm.trans hpc'
  | ret hasleep hpc' => cases hpc.symm.trans hpc'
  | wake hpc' chosen => cases hpc.symm.trans hpc'

theorem next_of_wakeCond (hpc : s.thread a.actor = .wakeCond addr count)
    (h : (machine Tid).next s a = some s') :
    ∃ ts, Chosen (woken count) (sleepersOf s (hashAddress addr)) ts ∧
      s' = (resume s true ts).move a.actor s.mem (.wakeRelease addr count) := by
  cases transition_of_next h with
  | @step t l m pc awake hstep =>
      rw [show s.thread t = .wakeCond addr count from hpc] at hstep
      cases l <;> cases hstep
  | sleep awake hpc' => cases hpc.symm.trans hpc'
  | ret hasleep hpc' => cases hpc.symm.trans hpc'
  | wake hpc' chosen =>
      cases hpc.symm.trans hpc'
      exact ⟨_, chosen, rfl⟩

/-! ### The locks of the slots -/

structure Inv (s : State Tid) : Prop where
  /-- Who holds a lock is its owner. -/
  owner : ∀ t slot, s.asleep t = none → (s.thread t).locks = some slot → s.mem.lock slot = some t
  sleeper : ∀ t addr, s.asleep t = some addr → ∃ w, s.thread t = .sleep w ∧ w.addr = addr

@[simp] theorem setLock_lock (owner : Option Tid) (other : Slot) :
    (m.setLock slot owner).lock other = if other = slot then owner else m.lock other :=
  Function.update_apply ..

@[simp] theorem setLock_waiting (owner : Option Tid) : (m.setLock slot owner).waiting = m.waiting := rfl

theorem resume_asleep : (resume s res ts).asleep v = if v ∈ ts then none else s.asleep v := rfl

theorem resume_thread :
    (resume s res ts).thread v = if v ∈ ts then (s.thread v).wakes res else s.thread v := rfl

theorem mem_sleepersOf : v ∈ sleepersOf s slot ↔ ∃ a, s.asleep v = some a ∧ hashAddress a = slot := by
  simp [sleepersOf, Option.map_eq_some_iff]

namespace Inv

/-- A thread that is asleep is at the position of its call. -/
theorem not_asleep (hinv : Inv s) (hpc : ∀ w, s.thread t ≠ .sleep w) : s.asleep t = none := by
  cases hasleep : s.asleep t with
  | none => rfl
  | some addr =>
      obtain ⟨w, hw, -⟩ := hinv.sleeper t addr hasleep
      exact absurd hw (hpc w)

theorem move (hinv : Inv s) (awake : s.asleep t = none) (heff : Effect t s.mem (s.thread t) m pc) :
    Inv (s.move t m pc) where
  owner v slot hv hlocks := by
    rw [Config.move_asleep] at hv
    rw [Config.move_thread, Function.update_apply] at hlocks
    rw [Config.move_mem]
    split_ifs at hlocks with hvt
    · cases heff with
      | outside before after hlock hwaiting =>
          rw [after] at hlocks
          cases hlocks
      | acquire before after hfree =>
          rw [after] at hlocks
          cases hlocks
          rw [setLock_lock, if_pos rfl, hvt]
      | inside before after hlock hwaiting =>
          rw [after] at hlocks
          cases hlocks
          rw [hlock, hvt]
          exact hinv.owner t _ awake before
      | release before after =>
          rw [after] at hlocks
          cases hlocks
    · have howner := hinv.owner v slot hv hlocks
      cases heff with
      | outside before after hlock hwaiting => rwa [hlock]
      | acquire before after hfree =>
          rw [setLock_lock, if_neg, howner]
          rintro rfl
          rw [hfree] at howner
          cases howner
      | inside before after hlock hwaiting => rwa [hlock]
      | release before after =>
          rw [setLock_lock, if_neg, howner]
          rintro rfl
          rw [hinv.owner t _ awake before] at howner
          exact hvt (Option.some.inj howner).symm
  sleeper v addr hv := by
    rw [Config.move_asleep] at hv
    rw [Config.move_thread, Function.update_of_ne]
    · exact hinv.sleeper v addr hv
    · rintro rfl
      rw [awake] at hv
      cases hv

theorem sleep (hinv : Inv s) (awake : s.asleep t = none) {w : Wait} (hpc : s.thread t = .sleep w) :
    Inv (sleepOn s t w.addr) where
  owner v slot hv hlocks := by
    simp only [sleepOn, Function.update_apply] at hv hlocks ⊢
    split_ifs at hv with hvt
    have howner := hinv.owner v slot hv hlocks
    rw [setLock_lock, if_neg, howner]
    rintro rfl
    rw [hinv.owner t _ awake (by rw [hpc]; rfl)] at howner
    exact hvt (Option.some.inj howner).symm
  sleeper v addr hv := by
    simp only [sleepOn, Function.update_apply] at hv ⊢
    split_ifs at hv with hvt
    · cases hv
      exact ⟨w, by rw [hvt, hpc], rfl⟩
    · exact hinv.sleeper v addr hv

/-- Who is woken up does not hold the lock yet. -/
theorem resume_at (hinv : Inv s) (hv : s.asleep v = some addr) (hin : v ∈ ts) :
    ∃ w, (resume s res ts).thread v = .reacquire w res ∧ w.addr = addr := by
  obtain ⟨w, hw, haddr⟩ := hinv.sleeper v addr hv
  exact ⟨w, by rw [resume_thread, if_pos hin, hw]; rfl, haddr⟩

theorem resume (hinv : Inv s) (hts : ∀ v ∈ ts, s.asleep v ≠ none) : Inv (resume s res ts) where
  owner v slot hv hlocks := by
    by_cases hin : v ∈ ts
    · obtain ⟨addr, haddr⟩ := Option.ne_none_iff_exists'.mp (hts v hin)
      obtain ⟨w, hw, -⟩ : ∃ w, (Fallback.resume s res ts).thread v = .reacquire w res ∧ w.addr = addr :=
        hinv.resume_at haddr hin
      rw [hw] at hlocks
      cases hlocks
    · rw [resume_asleep, if_neg hin] at hv
      rw [resume_thread, if_neg hin] at hlocks
      exact hinv.owner v slot hv hlocks
  sleeper v addr hv := by
    rw [resume_asleep] at hv
    split_ifs at hv with hin
    rw [resume_thread, if_neg hin]
    exact hinv.sleeper v addr hv

theorem chosen_asleep (chosen : Chosen (woken count) (sleepersOf s slot) ts) (hv : v ∈ ts) :
    s.asleep v ≠ none := by
  obtain ⟨a, ha, -⟩ := mem_sleepersOf.mp (chosen.1 hv)
  rw [ha]
  simp

theorem next (hinv : Inv s) (h : (machine Tid).next s a = some s') : Inv s' := by
  cases transition_of_next h with
  | step awake hstep => exact hinv.move awake (effect_of_step hstep)
  | sleep awake hpc => exact hinv.sleep awake hpc
  | ret hasleep hpc =>
      refine hinv.resume fun v hv => ?_
      rwa [Finset.mem_singleton.mp hv]
  | @wake t addr count ts hpc chosen =>
      have hresume : Inv (Fallback.resume s true ts) := hinv.resume fun v hv => chosen_asleep chosen hv
      have awake : s.asleep t = none := hinv.not_asleep (by simp [hpc])
      have hout : t ∉ ts := fun ht => chosen_asleep chosen ht awake
      refine hresume.move (by rw [resume_asleep, if_neg hout, awake]) ?_
      rw [resume_thread, if_neg hout, hpc]
      have hlocks : (Pc.wakeCond addr count).locks = some (hashAddress addr) := rfl
      exact .inside hlocks rfl rfl fun _ _ => rfl

end Inv

theorem inv_of_reachable {ok : StepCond (State Tid) (Act Tid)} (h : (machine Tid).Reachable ok s) : Inv s := by
  refine h.induct (I := Inv) ⟨fun t slot _ hlocks => ?_, fun t addr ht => ?_⟩ ?_
  · cases hlocks
  · cases ht
  · exact fun _ hinv hnext _ => hinv.next hnext

/-! ### While a wake holds the lock -/

/-- Nothing happens to a slot whose lock thread `t` holds when another thread takes a step, but that
sleepers may wake up. -/
structure Frame (slot : Slot) (t : Tid) (s s' : State Tid) : Prop where
  lock : s'.mem.lock slot = s.mem.lock slot
  waiting : s'.mem.waiting slot = s.mem.waiting slot
  thread : s'.thread t = s.thread t
  asleep : ∀ v addr, s'.asleep v = some addr → hashAddress addr = slot → s.asleep v = some addr

theorem Effect.frame (heff : Effect v m pc m' pc') (howner : ∀ slot, pc.locks = some slot → m.lock slot = some v)
    (hlock : m.lock slot = some t) (hne : v ≠ t) :
    m'.lock slot = m.lock slot ∧ m'.waiting slot = m.waiting slot := by
  have hother : ∀ other, pc.locks = some other → slot ≠ other := by
    rintro other before rfl
    rw [howner _ before] at hlock
    exact hne (Option.some.inj hlock)
  cases heff with
  | outside before after hlock' hwaiting => rw [hlock', hwaiting]; exact ⟨rfl, rfl⟩
  | @acquire _ other before after hfree =>
      have hso : slot ≠ other := by
        rintro rfl
        rw [hfree] at hlock
        cases hlock
      rw [setLock_lock, if_neg hso]
      exact ⟨rfl, rfl⟩
  | inside before after hlock' hwaiting =>
      rw [hlock', hwaiting _ (hother _ before)]
      exact ⟨rfl, rfl⟩
  | release before after =>
      rw [setLock_lock, if_neg (hother _ before)]
      exact ⟨rfl, rfl⟩

theorem Inv.frame (hinv : Inv s) (hlock : s.mem.lock slot = some t) (awake : s.asleep t = none)
    (h : (machine Tid).next s a = some s') (hne : a.actor ≠ t) : Frame slot t s s' := by
  cases transition_of_next h with
  | step hawake hstep =>
      have hmem := (effect_of_step hstep).frame (hinv.owner _ · hawake) hlock hne
      exact ⟨hmem.1, hmem.2, Function.update_of_ne hne.symm .., fun _ _ hv _ => hv⟩
  | @sleep v w hawake hpc =>
      have howner : s.mem.lock (hashAddress w.addr) = some v := hinv.owner v _ hawake (by rw [hpc]; rfl)
      have hother : slot ≠ hashAddress w.addr := by
        rintro rfl
        rw [howner] at hlock
        exact hne (Option.some.inj hlock)
      refine ⟨?_, rfl, rfl, fun x addr hx hslot => ?_⟩
      · simp only [sleepOn, setLock_lock, if_neg hother]
      · simp only [sleepOn, Function.update_apply] at hx
        split_ifs at hx
        · cases hx
          exact absurd hslot.symm hother
        · exact hx
  | @ret v w timeout hasleep hpc =>
      change v ≠ t at hne
      refine ⟨rfl, rfl, ?_, fun x addr hx _ => ?_⟩
      · rw [resume_thread, if_neg (by simpa using hne.symm)]
      · rw [resume_asleep] at hx
        split_ifs at hx
        exact hx
  | @wake v addr count ts hpc chosen =>
      change v ≠ t at hne
      refine ⟨rfl, rfl, ?_, fun x addr hx _ => ?_⟩
      · rw [Config.move_thread, Function.update_of_ne hne.symm, resume_thread,
          if_neg fun ht => Inv.chosen_asleep chosen ht awake]
      · rw [Config.move_asleep, resume_asleep] at hx
        split_ifs at hx
        exact hx

/-- A sleeper on the address of a slot whose lock another thread holds sleeps on, or has been woken up
and waits for the lock. -/
def Stays (addr : Addr) (s : State Tid) (v : Tid) : Prop :=
  s.asleep v = some addr ∨ s.asleep v = none ∧ ∃ w res, s.thread v = .reacquire w res ∧ w.addr = addr

theorem Stays.resume (hinv : Inv s) (h : Stays addr s v) (hts : ∀ v ∈ ts, s.asleep v ≠ none) :
    Stays addr (Fallback.resume s res ts) v := by
  rcases h with hv | ⟨hv, hw⟩
  · by_cases hin : v ∈ ts
    · obtain ⟨w, hw, haddr⟩ : ∃ w, (Fallback.resume s res ts).thread v = .reacquire w res ∧
          w.addr = addr := hinv.resume_at hv hin
      exact Or.inr ⟨by rw [resume_asleep, if_pos hin], w, res, hw, haddr⟩
    · exact Or.inl (by rw [resume_asleep, if_neg hin, hv])
  · have hout : v ∉ ts := fun hin => hts v hin hv
    exact Or.inr ⟨by rw [resume_asleep, if_neg hout, hv], by rwa [resume_thread, if_neg hout]⟩

theorem Stays.move (h : Stays addr s v) (hne : s.asleep v = none → v ≠ t) : Stays addr (s.move t m pc) v := by
  rcases h with hv | ⟨hv, hw⟩
  · exact Or.inl hv
  · exact Or.inr ⟨hv, by rwa [Config.move_thread, Function.update_of_ne (hne hv)]⟩

theorem Stays.next (hinv : Inv s) (h : Stays addr s v) (hlock : s.mem.lock (hashAddress addr) ≠ none)
    (hnext : (machine Tid).next s a = some s') : Stays addr s' v := by
  have hblocked : ∀ {t l m pc}, Fallback.step t l s.mem (s.thread t) = some (m, pc) →
      s.asleep v = none → Stays addr s v → v ≠ t := by
    rintro t l m pc hstep hv hstays rfl
    rcases hstays with hv' | ⟨-, w, res, hw, rfl⟩
    · rw [hv] at hv'
      cases hv'
    · rw [hw] at hstep
      cases l with
      | run =>
          simp only [Fallback.step, run, Fallback.acquire, if_neg hlock] at hstep
          cases hstep
      | _ => cases hstep
  cases transition_of_next hnext with
  | step awake hstep => exact h.move fun hv => hblocked hstep hv h
  | @sleep t w awake hpc =>
      rcases h with hv | ⟨hv, w', res, hw, haddr⟩
      · refine Or.inl ?_
        simp only [sleepOn]
        rw [Function.update_of_ne, hv]
        rintro rfl
        rw [awake] at hv
        cases hv
      · have hne : v ≠ t := by
          rintro rfl
          rw [hpc] at hw
          cases hw
        refine Or.inr ⟨?_, w', res, hw, haddr⟩
        simp only [sleepOn]
        rw [Function.update_of_ne hne, hv]
  | ret hasleep hpc =>
      refine h.resume hinv fun x hx => ?_
      rwa [Finset.mem_singleton.mp hx]
  | @wake t addr' count ts hpc chosen =>
      refine (h.resume hinv fun x hx => Inv.chosen_asleep chosen hx).move ?_
      rintro hv rfl
      rcases h with hv' | ⟨-, w, res, hw, -⟩
      · obtain ⟨w, hw, -⟩ := hinv.sleeper _ _ hv'
        rw [hpc] at hw
        cases hw
      · rw [hpc] at hw
        cases hw

/-! ### What a wake is worth -/

theorem due_le (count : I32) (k : ℕ) : due count k ≤ k := by
  unfold due
  split_ifs
  · exact le_rfl
  · exact min_le_right ..

theorem due_one (k : ℕ) : due 1 k = min 1 k := by
  rw [due, if_neg (by decide)]
  rfl

/-- The threads asleep on `addr` in `s` that are runnable in `u`. -/
def runnable (s : State Tid) (addr : Addr) (u : State Tid) : Finset Tid :=
  (s.sleepers addr).filter fun v => u.asleep v = none

theorem mem_runnable : v ∈ runnable s addr u ↔ s.asleep v = some addr ∧ u.asleep v = none := by
  rw [runnable, Finset.mem_filter, Config.mem_sleepers]

/-- How far thread `t` is in a wake that took the lock in the state `s`. -/
structure Waking (s : State Tid) (t : Tid) (addr : Addr) (count : I32) (u : State Tid) : Prop where
  inv : Inv u
  asleep : ∀ v a, u.asleep v = some a → hashAddress a = hashAddress addr → s.asleep v = some a
  stays : ∀ v, s.asleep v = some addr → Stays addr u v
  pc : u.thread t = .wakeTest addr count ∧
      u.mem.waiting (hashAddress addr) = s.mem.waiting (hashAddress addr) ∨
    u.thread t = .wakeCond addr count ∨
    u.thread t = .wakeRelease addr count ∧
      due count (s.sleepers addr).card ≤ (runnable s addr u).card

namespace Waking

theorem locks (h : Waking s t addr count u) : (u.thread t).locks = some (hashAddress addr) := by
  rcases h.pc with ⟨hpc, -⟩ | hpc | ⟨hpc, -⟩ <;> rw [hpc] <;> rfl

theorem awake (h : Waking s t addr count u) : u.asleep t = none := by
  refine h.inv.not_asleep fun w hw => ?_
  rcases h.pc with ⟨hpc, -⟩ | hpc | ⟨hpc, -⟩ <;> rw [hpc] at hw <;> cases hw

theorem lock (h : Waking s t addr count u) : u.mem.lock (hashAddress addr) = some t :=
  h.inv.owner t _ h.awake h.locks

/-- `WakeConditionVariable` finds a sleeper on the address, unless they have all woken up; and
`WakeAllConditionVariable` wakes them all. -/
theorem enough (h : Waking s t addr count u) (hheard : Heard s addr count)
    (chosen : Chosen (woken count) (sleepersOf u (hashAddress addr)) ts) :
    due count (s.sleepers addr).card ≤ (runnable s addr (Fallback.resume u true ts)).card := by
  by_cases hone : count = 1
  swap
  · rw [woken, if_neg hone] at chosen
    refine (due_le ..).trans (Finset.card_le_card fun v hv => ?_)
    rw [Config.mem_sleepers] at hv
    refine mem_runnable.mpr ⟨hv, ?_⟩
    rw [resume_asleep, chosen.all]
    split_ifs with hin
    · rfl
    · refine (h.stays v hv).elim (fun hv' => ?_) And.left
      exact absurd (mem_sleepersOf.mpr ⟨addr, hv', rfl⟩) hin
  · rcases hheard with hnone | ⟨-, hsame⟩
    · rw [hnone]
      exact (due_le ..).trans (Nat.zero_le _)
    rw [woken, if_pos hone] at chosen
    by_cases hall : ∃ v, s.asleep v = some addr ∧ u.asleep v = none
    · obtain ⟨v, hv, hv'⟩ := hall
      have hpos : 0 < (runnable s addr (Fallback.resume u true ts)).card := by
        refine Finset.card_pos.mpr ⟨v, mem_runnable.mpr ⟨hv, ?_⟩⟩
        rw [resume_asleep, hv', ite_self]
      rw [hone, due_one]
      omega
    · rcases (s.sleepers addr).eq_empty_or_nonempty with hnone | ⟨v, hv⟩
      · rw [hnone]
        exact (due_le ..).trans (Nat.zero_le _)
      rw [Config.mem_sleepers] at hv
      have hv' : u.asleep v = some addr :=
        (h.stays v hv).resolve_right fun hr => hall ⟨v, hv, hr.1⟩
      obtain ⟨x, rfl⟩ := chosen.singleton_of_one ⟨v, mem_sleepersOf.mpr ⟨addr, hv', rfl⟩⟩
      obtain ⟨a, ha, hslot⟩ := mem_sleepersOf.mp (chosen.1 (Finset.mem_singleton_self x))
      have hx := hsame hone (mem_sleepersOf.mpr ⟨a, h.asleep x a ha hslot, hslot⟩)
      have hpos : 0 < (runnable s addr (Fallback.resume u true {x})).card := by
        refine Finset.card_pos.mpr ⟨x, mem_runnable.mpr ⟨Config.mem_sleepers _ |>.mp hx, ?_⟩⟩
        rw [resume_asleep, if_pos (Finset.mem_singleton_self x)]
      rw [hone, due_one]
      omega

/-- A step of another thread. -/
theorem other (h : Waking s t addr count u) (hnext : (machine Tid).next u a = some u') (hne : a.actor ≠ t) :
    Waking s t addr count u' := by
  have hframe := h.inv.frame h.lock h.awake hnext hne
  have hstays : ∀ v, s.asleep v = some addr → Stays addr u' v := fun v hv =>
    (h.stays v hv).next h.inv (by rw [h.lock]; simp) hnext
  refine ⟨h.inv.next hnext, fun v a hv hslot => h.asleep v a (hframe.asleep v a hv hslot) hslot, hstays, ?_⟩
  rw [hframe.thread, hframe.waiting]
  refine h.pc.imp_right (Or.imp_right (And.imp_right fun hdue => hdue.trans (Finset.card_le_card ?_)))
  intro v hv
  obtain ⟨hv, hnone⟩ := mem_runnable.mp hv
  refine mem_runnable.mpr ⟨hv, (hstays v hv).elim (fun hv' => ?_) And.left⟩
  rw [hframe.asleep v addr hv' rfl] at hnone
  cases hnone

/-- A step of the wake itself, before its end. -/
theorem own (h : Waking s t addr count u) (hheard : Heard s addr count)
    (hnext : (machine Tid).next u a = some u') (ht : a.actor = t)
    (hrelease : u.thread t ≠ .wakeRelease addr count) : Waking s t addr count u' := by
  have hinv' := h.inv.next hnext
  have hstays : ∀ v, s.asleep v = some addr → Stays addr u' v := fun v hv =>
    (h.stays v hv).next h.inv (by rw [h.lock]; simp) hnext
  subst ht
  rcases h.pc with ⟨hpc, hflag⟩ | hpc | ⟨hpc, -⟩
  · obtain rfl := next_of_wakeTest hpc hnext
    refine ⟨hinv', h.asleep, hstays, Or.inr ?_⟩
    rw [Config.move_thread, Function.update_self, hflag]
    split_ifs with hwaiting
    · exact Or.inl rfl
    · obtain hnone : s.sleepers addr = ∅ := hheard.resolve_right fun hr => hwaiting hr.1
      refine Or.inr ⟨rfl, ?_⟩
      rw [hnone]
      exact (due_le ..).trans (Nat.zero_le _)
  · obtain ⟨ts, chosen, rfl⟩ := next_of_wakeCond hpc hnext
    refine ⟨hinv', fun v a hv hslot => ?_, hstays, Or.inr (Or.inr ⟨?_, h.enough hheard chosen⟩)⟩
    · rw [Config.move_asleep, resume_asleep] at hv
      split_ifs at hv
      exact h.asleep v a hv hslot
    · rw [Config.move_thread, Function.update_self]
  · exact absurd hpc hrelease

theorem of_leads (hinit : Waking s t addr count s') (hheard : Heard s addr count)
    (h : (machine Tid).Leads (beforeRelease t addr count) s' u) :
    Waking s t addr count u := by
  refine h.induct (I := Waking s t addr count) hinit fun {v a v'} _ hwaking hnext hrelease => ?_
  by_cases ht : a.actor = t
  · exact hwaking.own hheard hnext ht hrelease
  · exact hwaking.other hnext ht

end Waking

/-- The lock is taken. -/
theorem Waking.init (hinv : Inv s) (hpc : s.thread t = .wakeAcquire addr count)
    (h : (machine Tid).next s (.step t .run) = some s') : Waking s t addr count s' := by
  have hinv' := hinv.next h
  obtain ⟨-, rfl⟩ := next_of_wakeAcquire hpc h
  refine ⟨hinv', fun v a hv _ => hv, fun v hv => Or.inl hv, Or.inl ⟨?_, ?_⟩⟩
  · rw [Config.move_thread, Function.update_self]
  · rw [Config.move_mem, setLock_waiting]

/-! ### Wakes that come to nothing -/

/-- Nobody who slept on the address is runnable at the end of the wake. -/
theorem not_honoured (h : (machine Tid).Leads (beforeRelease t addr count) s' u)
    (hpc : u.thread t = .wakeRelease addr count) (hsome : s.sleepers addr ≠ ∅)
    (hnone : ∀ v, s.asleep v = some addr → u.asleep v ≠ none) : ¬ Honoured s s' t addr count := by
  intro hall
  have hdue := hall u h hpc
  have hempty : runnable s addr u = ∅ :=
    Finset.eq_empty_of_forall_notMem fun v hv => hnone v (mem_runnable.mp hv).1 (mem_runnable.mp hv).2
  rw [← runnable, hempty, Finset.card_empty, due] at hdue
  have hpos := Finset.card_pos.mpr (Finset.nonempty_iff_ne_empty.mpr hsome)
  split_ifs at hdue <;> omega

/-- The test of the flag, taken by thread `t` next. -/
theorem leads_test (hpc : s.thread t = .wakeTest addr count) (awake : s.asleep t = none) :
    (machine Tid).Leads (beforeRelease t addr count) s (s.move t s.mem
      (if s.mem.waiting (hashAddress addr) = true then .wakeCond addr count
        else .wakeRelease addr count)) := by
  refine .single ⟨.step t .run, ?_, by rw [beforeRelease, hpc]; simp⟩
  change next s (.step t .run) = _
  rw [next, if_pos awake, hpc]
  rfl

/-- `WakeConditionVariable` may wake any thread asleep in the slot. -/
theorem leads_one (hpc : s.thread t = .wakeCond addr 1) (hv : v ∈ sleepersOf s (hashAddress addr)) :
    (machine Tid).Leads (beforeRelease t addr 1) s
      ((resume s true {v}).move t s.mem (.wakeRelease addr 1)) := by
  have hchosen : Chosen (woken 1) (sleepersOf s (hashAddress addr)) {v} := by
    have hpos : 0 < (sleepersOf s (hashAddress addr)).card := Finset.card_pos.mpr ⟨v, hv⟩
    refine ⟨Finset.singleton_subset_iff.mpr hv, ?_⟩
    rw [Finset.card_singleton]
    exact (min_eq_left hpos).symm
  refine .single ⟨.wake t {v}, ?_, by rw [beforeRelease, hpc]; simp⟩
  change next s (.wake t {v}) = _
  simp only [next, hpc, if_pos hchosen]

/-- The flag is clear although somebody sleeps. -/
theorem not_honoured_of_clear (hpc : s'.thread t = .wakeTest addr count) (awake : s'.asleep t = none)
    (hsame : s'.asleep = s.asleep) (hsome : s.sleepers addr ≠ ∅)
    (hclear : s'.mem.waiting (hashAddress addr) = false) : ¬ Honoured s s' t addr count := by
  have hlead := leads_test hpc awake
  rw [if_neg (by rw [hclear]; simp)] at hlead
  refine not_honoured hlead (Function.update_self ..) hsome fun v hv => ?_
  rw [Config.move_asleep, hsame, hv]
  simp

/-- A wake for one thread finds somebody asleep on another address. -/
theorem not_honoured_of_other (hpc : s'.thread t = .wakeTest addr 1) (awake : s'.asleep t = none)
    (hsame : s'.asleep = s.asleep) (hsome : s.sleepers addr ≠ ∅)
    (hset : s'.mem.waiting (hashAddress addr) = true) (hv : v ∈ sleepersOf s (hashAddress addr))
    (hv' : v ∉ s.sleepers addr) : ¬ Honoured s s' t addr 1 := by
  have htest := leads_test hpc awake
  rw [if_pos hset] at htest
  have hone := leads_one (s := s'.move t s'.mem (.wakeCond addr 1)) (Function.update_self ..)
    (by rwa [sleepersOf, Config.move_asleep, hsame])
  refine not_honoured (htest.trans hone) (Function.update_self ..) hsome fun x hx => ?_
  have hxv : x ∉ ({v} : Finset Tid) := by
    rw [Finset.mem_singleton]
    rintro rfl
    exact hv' (s.mem_sleepers.mpr hx)
  rw [Config.move_asleep, resume_asleep, if_neg hxv, Config.move_asleep, hsame, hx]
  simp

/-- The wake is honoured, however the run goes on, exactly if it is heard. -/
theorem honoured_iff (hinv : Inv s) (hpc : s.thread t = .wakeAcquire addr count)
    (h : (machine Tid).next s (.step t .run) = some s') :
    Honoured s s' t addr count ↔ Heard s addr count := by
  have hinit := Waking.init hinv hpc h
  constructor
  · intro hall
    have awake := hinit.awake
    obtain ⟨-, rfl⟩ := next_of_wakeAcquire hpc h
    by_contra hheard
    rw [Heard, not_or] at hheard
    obtain ⟨hsome, hheard⟩ := hheard
    have htest := Function.update_self t (.wakeTest addr count) s.thread
    cases hwaiting : s.mem.waiting (hashAddress addr) with
    | false => exact not_honoured_of_clear htest awake rfl hsome hwaiting hall
    | true =>
        obtain ⟨rfl, hother⟩ : count = 1 ∧ ¬ sleepersOf s (hashAddress addr) ⊆ s.sleepers addr := by
          by_contra hcount
          exact hheard ⟨hwaiting, fun hone => not_not.mp fun hnot => hcount ⟨hone, hnot⟩⟩
        obtain ⟨v, hv, hv'⟩ := Finset.not_subset.mp hother
        exact not_honoured_of_other htest awake rfl hsome hwaiting hv hv' hall
  · intro hheard u hlead hu
    have hend := (hinit.of_leads hheard hlead).pc
    rw [hu] at hend
    rcases hend with ⟨hend, -⟩ | hend | ⟨-, hdue⟩
    · cases hend
    · cases hend
    · exact hdue

/-! ### The contract -/

/-- A wake makes enough of the sleepers on its address runnable, in every continuation of the run,
exactly if in the state in which it takes the lock nobody sleeps on the address, or the flag of the slot
is set and a wake for one thread finds no sleeper on another address. -/
theorem fallback_wake_honoured (h : (machine Tid).Reachable anyStep s)
    (hpc : s.thread t = .wakeAcquire addr count) (hnext : (machine Tid).next s (.step t .run) = some s') :
    Honoured s s' t addr count ↔ Heard s addr count :=
  honoured_iff (inv_of_reachable h) hpc hnext

/-- Thread `t` calls `wait(addr, 0)` and falls asleep. -/
def waits (t : Runner) (addr : Addr) : List (Act Runner) :=
  [.step t (.wait addr 0), .step t .run, .step t .run, .step t .run, .sleep t]

/-- Two threads sleep on one address. -/
def twoAsleep : List (Act Runner) := waits .a 0 ++ waits .b 0 ++ [.step .c (.wake 0 1)]

theorem fallback_wake_honoured_two : ∃ s s' : State Runner,
    s.asleep .a = some 0 ∧ s.asleep .b = some 0 ∧ Honoured s s' .c 0 1 := by
  let s := ((machine Runner).run anyStep (machine Runner).init twoAsleep).get (by decide)
  have hnext : ((machine Runner).next s (.step .c .run)).isSome := by decide
  exact ⟨s, ((machine Runner).next s (.step .c .run)).get hnext, by decide, by decide,
    (fallback_wake_honoured (.of_run twoAsleep _) (by decide) (Option.some_get hnext).symm).mpr (by decide)⟩

/-- The first wake reaches thread `a`, which clears the flag when it returns. -/
def oneLeft : List (Act Runner) :=
  twoAsleep ++ [.step .c .run, .step .c .run, .wake .c {.a}, .step .c .run, .step .a .run, .step .a .run,
    .step .a .run, .step .c (.wake 0 1)]

/-- The second wake finds the flag clear, and thread `b` sleeps on. -/
theorem fallback_skips_wake : ∃ s s' : State Runner, (machine Runner).Reachable anyStep s ∧
    s.thread .c = .wakeAcquire 0 1 ∧ (machine Runner).next s (.step .c .run) = some s' ∧
    s.asleep .b = some 0 ∧ ¬ Honoured s s' .c 0 1 := by
  let s := ((machine Runner).run anyStep (machine Runner).init oneLeft).get (by decide)
  have hreach : (machine Runner).Reachable anyStep s := .of_run oneLeft _
  have hnext : ((machine Runner).next s (.step .c .run)).isSome := by decide
  refine ⟨s, ((machine Runner).next s (.step .c .run)).get hnext, hreach, by decide,
    (Option.some_get hnext).symm, by decide, ?_⟩
  rw [honoured_iff (inv_of_reachable hreach) (by decide) (Option.some_get hnext).symm]
  decide

end Psync.Fallback
