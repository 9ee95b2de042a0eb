/-
What a queue's tasks get of it, over any run.

Every step keeps the invariant and moves the accounts by one item at most, so a run's accounts
balance: what was received and what is still queued are what was accepted, in order, save what is
counted as dropped. And once every woken task has run, none waits beside what it looks for.
-/
import Cosmic.Task.ChannelSound

set_option autoImplicit false

namespace Cosmic.Channel

open Cosmic.Base List Option Function

variable {K T : Type}

/-! ## Steps -/

structure Stepped (s : State K T) (xs : List T) (e : Option (Event T)) (s' : State K T) (ys : List T) : Prop where
  sound : Sound (fun _ => 0) s' ys
  effect : Effect s.overflow e xs s.drops ys s'.drops
  frame : Frame s s'
  shut : s.is_closed = true → ∀ item why, e ≠ some (.sent item true why)

variable {s : State K T} {xs : List T}

theorem Sound.window_lookup {debt : Gate → ℕ} (h : Sound debt s xs) (hcount : s.window.count ≠ 0) :
    ∃ x rest, xs = x :: rest := by
  cases xs with
  | nil => exact absurd h.count hcount
  | cons x rest => exact ⟨x, rest, rfl⟩

variable {debt : Gate → ℕ} {s : State K T} {xs : List T}

variable {s' : State K T} {e : Option (Event T)}

theorem try_send_stepped (h : Sound (fun _ => 0) s xs) (item : T) (hstep : try_send item s = (s', e)) :
    ∃ ys, Stepped s xs e s' ys := by
  obtain ⟨o, s₁, hoffer, hframe, -, hcases⟩ := h.offer rfl (Nat.zero_le _) item
  rw [try_send, hoffer] at hstep
  rcases hcases with ⟨rfl, ⟨hopen, -⟩, ys, hsound, hput⟩ | ⟨rfl, -, hdrops, hsound, -⟩ | ⟨rfl, rfl, -, -, hsound, -⟩
  · cases hstep
    exact ⟨ys, hsound, .sent hput, hframe, fun hclosed => absurd (hopen.symm.trans hclosed) Bool.false_ne_true⟩
  · cases hstep
    exact ⟨xs, hsound, by rw [hdrops]; exact .refused item CLOSED xs s.drops, hframe, nofun⟩
  · cases hstep
    exact ⟨xs, hsound, .refused item FULL xs _, hframe, nofun⟩

variable [DecidableEq K]

variable {k : K}

theorem park_stepped (h : Sound (fun _ => 0) s xs) (hk : (s.phase k).gate = none) (hopen : s.is_closed = false)
    {g : Gate} (havail : avail s g = 0) {phase : Phase T} (hphase : phase.gate = some g)
    (hstep : park g k phase s = (s', e)) : ∃ ys, Stepped s xs e s' ys := by
  rw [park] at hstep
  have hparks : Stepped s xs none
      { s with waiters := update s.waiters g (s.waiters g ++ [k]), phase := update s.phase k phase } xs := by
    refine ⟨⟨h.holds, h.room, h.capacity, h.placed.park hk hphase, fun hclosed => ?_, fun g' hne => ?_, h.dropping⟩,
      .idle xs s.drops, ⟨rfl, rfl, id⟩, nofun⟩
    · exact absurd (hopen.symm.trans hclosed) Bool.false_ne_true
    by_cases hg : g' = g
    · subst hg
      exact Nat.le_trans (Nat.le_of_eq havail) (Nat.zero_le _)
    · dsimp only at hne
      rw [update_of_ne hg] at hne
      exact h.enough g' hne
  rcases hp : s.phase k with _ | _ | _ | _
  · rw [hp] at hstep
    cases hstep
    exact ⟨xs, hparks⟩
  · rw [hp] at hk
    exact absurd hk (some_ne_none _)
  · rw [hp] at hk
    exact absurd hk (some_ne_none _)
  · rw [hp] at hstep
    cases hstep
    exact ⟨xs, h, .raised xs s.drops, .refl s, nofun⟩

variable {deadline : Option ℤ} {now : ℤ}

theorem send_round_stepped (h : Sound debt s xs) (hempty : debt .not_empty = 0) (hfull : debt .not_full ≤ 1)
    (hk : (s.phase k).gate = none) {item : T} (hstep : send_round k item deadline now s = (s', e)) :
    ∃ ys, Stepped s xs e s' ys := by
  obtain ⟨o, s₁, hoffer, hframe, hphase, hcases⟩ := h.offer hempty hfull item
  rw [send_round, hoffer] at hstep
  rcases hcases with ⟨rfl, ⟨hopen, -⟩, ys, hsound, hput⟩ | ⟨rfl, -, hdrops, hsound, -⟩ | ⟨rfl, rfl, hopen, -, hsound, hlength⟩
  · cases hstep
    exact ⟨ys, hsound, .sent hput, hframe, fun hclosed => absurd (hopen.symm.trans hclosed) Bool.false_ne_true⟩
  · cases hstep
    exact ⟨xs, hsound, by rw [hdrops]; exact .refused item CLOSED xs s.drops, hframe, nofun⟩
  · dsimp only at hstep
    by_cases hexpired : expired deadline now = true
    · rw [if_pos hexpired] at hstep
      cases hstep
      exact ⟨xs, hsound, .refused item TIMEOUT xs _, hframe, nofun⟩
    · rw [if_neg hexpired] at hstep
      refine park_stepped hsound hk hopen ?_ rfl hstep
      rw [avail, hsound.count]
      omega

theorem receive_round_stepped (h : Sound debt s xs) (hempty : debt .not_empty ≤ 1) (hfull : debt .not_full = 0)
    (hk : (s.phase k).gate = none) (hstep : receive_round k deadline now s = (s', e)) :
    ∃ ys, Stepped s xs e s' ys := by
  rw [receive_round] at hstep
  by_cases hcount : s.window.count = 0
  · rw [if_pos hcount] at hstep
    -- an empty queue has no item, so nothing is lacking for it
    have hsettled : Sound (fun _ => 0) s xs := by
      refine { h with enough := fun g hne => ?_ }
      have hg := h.enough g hne
      cases g with
      | not_empty =>
        rw [avail, hcount]
        exact Nat.zero_le _
      | not_full => rwa [hfull] at hg
    rcases hclosed : s.is_closed with _ | _
    · rw [hclosed, if_neg Bool.false_ne_true] at hstep
      by_cases hexpired : expired deadline now = true
      · rw [if_pos hexpired] at hstep
        cases hstep
        exact ⟨xs, hsettled, .missed TIMEOUT xs _, .refl s, by simp⟩
      · rw [if_neg hexpired] at hstep
        exact park_stepped (g := .not_empty) hsettled hk hclosed hcount rfl hstep
    · rw [hclosed, if_pos rfl] at hstep
      cases hstep
      exact ⟨xs, hsettled, .missed CLOSED xs _, .refl s, by simp⟩
  · rw [if_neg hcount] at hstep
    obtain ⟨x, rest, rfl⟩ := h.window_lookup hcount
    obtain ⟨window, hpop, hafter⟩ := h.pop
    rw [hpop] at hstep
    cases hstep
    have hsound := hafter s.drops h.dropping (fun g => if g = .not_full then 1 else 0)
      (by rw [if_neg Gate.noConfusion]; omega) (by rw [if_pos rfl]; omega)
    obtain ⟨hframe, -, -, hdrops⟩ := notify_one_frame .not_full { s with window }
    refine ⟨rest, hsound.notify_one .not_full (by simp) fun g hne => by simp [hne], ?_,
      ⟨hframe.capacity, hframe.overflow, hframe.closed⟩, by simp⟩
    rw [hdrops]
    exact .received x rest s.drops

theorem resume_stepped (h : Sound (fun _ => 0) s xs) {w : Wake K} (hw : w ∈ s.ready)
    (hstep : resume w now s = (s', e)) : ∃ ys, Stepped s xs e s' ys := by
  have htaken := h.taken hw
  have hnotices := h.placed.notices w hw
  have hrunning : (update s.phase w.task (.running : Phase T) w.task).gate = none := by
    rw [update_self]
    rfl
  rw [resume] at hstep
  -- a wait answered otherwise than by a notice is owed none
  have hunowed : w.ok = false → Sound (fun _ => 0)
      { s with ready := s.ready.erase w, phase := update s.phase w.task .running } xs := by
    intro hok
    refine htaken.weaken fun g => ?_
    rw [if_neg fun hg => absurd ((hnotices g hg).1.symm.trans hok) (by simp)]
  have hframe : Frame s { s with ready := s.ready.erase w, phase := update s.phase w.task .running } := ⟨rfl, rfl, id⟩
  rcases hphase : s.phase w.task with _ | ⟨item, deadline⟩ | deadline | _
  · exact absurd (by rw [hphase]; rfl) (h.placed.waits w hw)
  · rw [hphase] at hstep
    dsimp only at hstep
    rcases hok : w.ok with _ | _
    · rw [hok, if_neg Bool.false_ne_true] at hstep
      cases hstep
      exact ⟨xs, hunowed hok, .refused item w.why xs s.drops, hframe, nofun⟩
    · rw [hok, if_pos rfl] at hstep
      have hother : w.notice ≠ some .not_empty := by
        intro hg
        have := (hnotices _ hg).2
        rw [hphase] at this
        cases this
      obtain ⟨ys, hsound, heffect, hframe', hshut⟩ := send_round_stepped htaken (if_neg hother) (by split_ifs <;> omega) hrunning hstep
      exact ⟨ys, hsound, heffect, hframe.trans hframe', hshut⟩
  · rw [hphase] at hstep
    dsimp only at hstep
    rcases hok : w.ok with _ | _
    · rw [hok, if_neg Bool.false_ne_true] at hstep
      cases hstep
      exact ⟨xs, hunowed hok, .missed w.why xs s.drops, hframe, nofun⟩
    · rw [hok, if_pos rfl] at hstep
      have hother : w.notice ≠ some .not_full := by
        intro hg
        have := (hnotices _ hg).2
        rw [hphase] at this
        cases this
      obtain ⟨ys, hsound, heffect, hframe', hshut⟩ := receive_round_stepped htaken (by split_ifs <;> omega) (if_neg hother) hrunning hstep
      exact ⟨ys, hsound, heffect, hframe.trans hframe', hshut⟩
  · exact absurd (by rw [hphase]; rfl) (h.placed.waits w hw)

theorem kill_frame (k : K) (s : State K T) : Frame s (kill k s) ∧ (kill k s).drops = s.drops := by
  rw [kill]
  obtain ⟨hframe, -, -, hdrops⟩ := hand_on_frame ((s.ready.filter fun w => w.task = k).filterMap Wake.notice)
    { leave k s with ready := s.ready.filter (fun w => w.task ≠ k), phase := update s.phase k .killed }
  exact ⟨⟨hframe.capacity, hframe.overflow, hframe.closed⟩, hdrops⟩

omit [DecidableEq K] in
theorem free_gate (h : free k s = true) : (s.phase k).gate = none := by
  rw [free] at h
  cases hp : s.phase k <;> simp [hp, Phase.gate] at h ⊢

theorem step_stepped (h : Sound (fun _ => 0) s xs) {a : Act K T} (hstep : step s a = some (s', e)) :
    ∃ ys, Stepped s xs e s' ys := by
  cases a with
  | send k item timeout now now' =>
    rw [step] at hstep
    by_cases hfree : free k s = true
    · rw [if_pos hfree] at hstep
      exact send_round_stepped h rfl (Nat.zero_le _) (free_gate hfree) (some.inj hstep)
    · rw [if_neg hfree] at hstep
      cases hstep
  | try_send item => exact try_send_stepped h item (some.inj hstep)
  | receive k timeout now now' =>
    rw [step] at hstep
    by_cases hfree : free k s = true
    · rw [if_pos hfree] at hstep
      exact receive_round_stepped h (Nat.zero_le _) rfl (free_gate hfree) (some.inj hstep)
    · rw [if_neg hfree] at hstep
      cases hstep
  | close =>
    cases hstep
    obtain ⟨hframe, -, hdrops⟩ := close_frame s
    exact ⟨xs, h.close, by rw [hdrops]; exact .idle xs s.drops, hframe, nofun⟩
  | resume k now =>
    obtain ⟨w, hw, hstep⟩ := map_eq_some_iff.mp hstep
    exact resume_stepped h (mem_of_find?_eq_some hw) hstep
  | answer k why =>
    rw [step] at hstep
    by_cases hparked : parked k s = true
    · rw [if_pos hparked] at hstep
      cases hstep
      exact ⟨xs, h.answer hparked why, .idle xs s.drops, ⟨rfl, rfl, id⟩, nofun⟩
    · rw [if_neg hparked] at hstep
      cases hstep
  | kill k =>
    have hkilled : Stepped s xs none (kill k s) xs := by
      obtain ⟨hframe, hdrops⟩ := kill_frame k s
      exact ⟨h.kill k, by rw [hdrops]; exact .idle xs s.drops, hframe, nofun⟩
    rw [step] at hstep
    split at hstep
    · cases hstep
    · cases hstep
      exact ⟨xs, hkilled⟩

/-! ## Runs -/

omit [DecidableEq K] in
def Event.accepted : Event T → Option T
  | .sent item true _ => some item
  | _ => none

def Event.taken : Event T → Option T
  | .received item => some item
  | _ => none

def Event.answered : Event T → Option T
  | .sent item _ _ => some item
  | _ => none

/-- The items whose sends answered true, in order. -/
def accepted (log : List (Event T)) : List T := log.filterMap Event.accepted

def received (log : List (Event T)) : List T := log.filterMap Event.taken

/-- The items whose sends answered, in order. -/
def answered (log : List (Event T)) : List T := log.filterMap Event.answered

variable {o : Overflow} {ys : List T} {drops drops' : ℕ}

theorem Effect.balanced (h : Effect o e xs drops ys drops') {offered taken : List T}
    (hl : (Ledger.mk offered taken xs drops).Balanced) :
    (Ledger.mk (offered ++ accepted e.toList) (taken ++ Channel.received e.toList) ys drops').Balanced := by
  have hoffered := append_nil offered
  have htaken := append_nil taken
  cases h with
  | sent hput =>
    refine (?_ : (Ledger.mk (offered ++ [_]) (taken ++ []) ys drops').Balanced)
    rw [htaken]
    cases hput with
    | queued => exact hl.move (.queue _ _)
    | displaced ho x => exact hl.move (.displace _ _ x _ rfl)
    | discarded => exact hl.move (.discard _ _)
  | received =>
    refine (?_ : (Ledger.mk (offered ++ []) (taken ++ [_]) ys drops).Balanced)
    rw [hoffered]
    exact hl.move (.take _ _ _ rfl)
  | idle => rwa [← hoffered, ← htaken] at hl
  | refused => rwa [← hoffered, ← htaken] at hl
  | missed => rwa [← hoffered, ← htaken] at hl
  | raised => rwa [← hoffered, ← htaken] at hl

theorem Effect.accepts_none (h : Effect o e xs drops ys drops') (hnone : ∀ item why, e ≠ some (.sent item true why)) :
    accepted e.toList = [] ∧ xs = Channel.received e.toList ++ ys := by
  cases h with
  | sent => exact absurd rfl (hnone _ _)
  | idle => exact ⟨rfl, rfl⟩
  | refused => exact ⟨rfl, rfl⟩
  | received => exact ⟨rfl, rfl⟩
  | missed => exact ⟨rfl, rfl⟩
  | raised => exact ⟨rfl, rfl⟩

theorem Effect.raised_only {why : Bytes} (h : Effect o (some (.raised why)) xs drops ys drops') :
    why = WAIT_KILLED := by
  cases h
  rfl

variable {log : List (Event T)}

theorem runs_sound {s₀ : State K T} {xs₀ offered taken : List T} (h₀ : Sound (fun _ => 0) s₀ xs₀)
    (hl : (Ledger.mk offered taken xs₀ s₀.drops).Balanced) (hruns : Runs s₀ log s) :
    ∃ xs, Sound (fun _ => 0) s xs ∧ Frame s₀ s ∧
      (Ledger.mk (offered ++ accepted log) (taken ++ received log) xs s.drops).Balanced ∧
        ∀ why, .raised why ∈ log → why = WAIT_KILLED := by
  induction hruns with
  | nil => exact ⟨xs₀, h₀, .refl _, by simpa [accepted, received] using hl, nofun⟩
  | snoc _ hstep ih =>
    obtain ⟨xs, hsound, hframe, hbalanced, hraised⟩ := ih
    obtain ⟨ys, hstepped⟩ := step_stepped hsound hstep
    have hafter := hstepped.effect.balanced hbalanced
    rw [append_assoc, append_assoc, accepted, accepted, received, received, ← filterMap_append,
      ← filterMap_append] at hafter
    refine ⟨ys, hstepped.sound, hframe.trans hstepped.frame, hafter, fun why hin => ?_⟩
    rcases mem_append.mp hin with hin | hin
    · exact hraised why hin
    · have heffect := hstepped.effect
      rw [mem_toList] at hin
      rw [hin] at heffect
      exact heffect.raised_only

theorem runs_closed {s₀ : State K T} {xs₀ : List T} (h₀ : Sound (fun _ => 0) s₀ xs₀) (hclosed : s₀.is_closed = true)
    (hruns : Runs s₀ log s) :
    ∃ xs, Sound (fun _ => 0) s xs ∧ s.is_closed = true ∧ accepted log = [] ∧ xs₀ = received log ++ xs := by
  induction hruns with
  | nil => exact ⟨xs₀, h₀, hclosed, rfl, rfl⟩
  | @snoc s' s'' log a e _ hstep ih =>
    obtain ⟨xs, hsound, hclosed', haccepted, hxs⟩ := ih
    obtain ⟨ys, hstepped⟩ := step_stepped hsound hstep
    have hmoved := hstepped.effect.accepts_none (hstepped.shut hclosed')
    refine ⟨ys, hstepped.sound, hstepped.frame.closed hclosed', ?_, ?_⟩
    · rw [accepted, filterMap_append, ← accepted, ← accepted, haccepted, hmoved.1]
      rfl
    · rwa [received, filterMap_append, ← received, ← received, append_assoc, ← hmoved.2]

theorem Runs.trans {s'' : State K T} {log' : List (Event T)} (h : Runs s log s') (h' : Runs s' log' s'') :
    Runs s (log ++ log') s'' := by
  induction h' with
  | nil =>
    rwa [append_nil]
  | snoc _ hstep ih =>
    rw [← append_assoc]
    exact .snoc ih hstep

theorem Runs.of_run (acts : List (Act K T)) : ∀ {s s' : State K T} {log : List (Event T)}, run s acts = some (s', log) → Runs s log s' := by
  induction acts with
  | nil =>
    intro s s' log h
    cases h
    exact .nil s
  | cons a acts ih =>
    intro s s' log h
    obtain ⟨⟨s₁, e⟩, hstep, h⟩ := bind_eq_some_iff.mp h
    obtain ⟨⟨s₂, log'⟩, hrun, h⟩ := map_eq_some_iff.mp h
    cases h
    exact (Runs.snoc (.nil s) hstep).trans (ih hrun)

theorem runs_drain (xs : List T) : ∀ {s : State K T}, Sound (fun _ => 0) s xs → ∀ {k : K}, free k s = true →
    ∃ log s', Runs s log s' ∧ received log = xs ∧ accepted log = [] ∧ Sound (fun _ => 0) s' [] := by
  induction xs with
  | nil => exact fun h _ _ => ⟨[], _, .nil _, rfl, rfl, h⟩
  | cons x xs ih =>
    intro s h k hk
    have hcount : s.window.count ≠ 0 := by
      rw [h.count, length_cons]
      exact Nat.succ_ne_zero _
    obtain ⟨window, hpop, -⟩ := h.pop
    have hstep : step s (.receive k none 0 0) =
        some (notify_one .not_full { s with window }, some (.received x)) := by
      rw [step, if_pos hk, receive_round, if_neg hcount, hpop]
    obtain ⟨ys, hstepped⟩ := step_stepped h hstep
    obtain ⟨-, hphase, -, -⟩ := notify_one_frame .not_full { s with window }
    have hys := (hstepped.effect.accepts_none nofun).2
    obtain rfl := (List.cons.inj hys).2
    have hfree : free k (notify_one .not_full { s with window }) = true := by
      rwa [free, hphase]
    obtain ⟨log, s', hruns, hreceived, haccepted, hsound⟩ := ih hstepped.sound hfree
    refine ⟨_, s', (Runs.snoc (.nil s) hstep).trans hruns, ?_, ?_, hsound⟩
    · rw [received, filterMap_append, ← received, ← received, hreceived]
      rfl
    · rw [accepted, filterMap_append, ← accepted, ← accepted, haccepted]
      rfl

omit [DecidableEq K] in
theorem Sound.at_rest (h : Sound (fun _ => 0) s xs) (hready : s.ready = []) {g : Gate}
    (hk : (s.phase k).gate = some g) :
    s.is_closed = false ∧ avail s g = 0 := by
  have hin : k ∈ s.waiters g := by
    rcases h.placed.covered k g hk with hin | hin
    · exact hin
    · rw [woken, hready] at hin
      cases hin
  constructor
  · rcases hclosed : s.is_closed with _ | _
    · rfl
    · exact absurd (h.shut hclosed g) (ne_nil_of_mem hin)
  · have henough := h.enough g (ne_nil_of_mem hin)
    rw [pending, hready] at henough
    exact Nat.le_zero.mp henough

theorem mem_answered_once (log : List (Event T)) (h : (answered log).Nodup) {a b : Event T} (ha : a ∈ log) (hb : b ∈ log) {x : T}
    (hax : a.answered = some x) (hbx : b.answered = some x) : a = b := by
  rw [answered] at h
  induction log with
  | nil => exact absurd ha not_mem_nil
  | cons c log ih =>
    have hin : ∀ d ∈ log, d.answered = some x → x ∈ log.filterMap Event.answered := fun d hd hdx =>
      mem_filterMap.mpr ⟨d, hd, hdx⟩
    rcases mem_cons.mp ha with rfl | ha'
    · rcases mem_cons.mp hb with rfl | hb'
      · rfl
      · rw [filterMap_cons_some hax] at h
        exact absurd (hin b hb' hbx) (nodup_cons.mp h).1
    · rcases mem_cons.mp hb with rfl | hb'
      · rw [filterMap_cons_some hbx] at h
        exact absurd (hin a ha' hax) (nodup_cons.mp h).1
      · refine ih ?_ ha' hb'
        exact h.sublist ((sublist_cons_self c log).filterMap _)

theorem refused_never (hsub : (received log ++ xs).Sublist (accepted log)) (honce : (answered log).Nodup) {x : T}
    {why : Bytes} (h : .sent x false why ∈ log) : x ∉ received log ++ xs := by
  intro hin
  obtain ⟨e, he, hx⟩ := mem_filterMap.mp (hsub.subset hin)
  have hanswered : e.answered = some x := by
    rw [Event.accepted.eq_def] at hx
    split at hx
    · exact hx
    · cases hx
  have hsame := mem_answered_once log honce he h hanswered rfl
  rw [hsame] at hx
  cases hx

/-- A queue of any capacity and policy, in any run of the tasks that use it. -/
theorem channel_accounts (K T : Type) [DecidableEq K] (capacity : ℕ) (overflow : Overflow) (hcapacity : 0 < capacity ∧ capacity < 2 ^ 63)
    (log : List (Event T)) (s : State K T) (hruns : Runs (new K T capacity overflow) log s) :
    ∃ queued, s.window.Holds queued ∧ (received log ++ queued).Sublist (accepted log) ∧
      (overflow = .block ∨ overflow = .close → received log ++ queued = accepted log) ∧
      (accepted log).length = (received log ++ queued).length + s.drops ∧
      ((answered log).Nodup → ∀ x why, .sent x false why ∈ log → x ∉ received log ++ queued) ∧
      queued.length ≤ capacity ∧
      (∀ why, .raised why ∈ log → why = WAIT_KILLED) ∧
      (s.is_closed = true → ∀ log' s', Runs s log' s' →
        s'.is_closed = true ∧ accepted log' = [] ∧ ∃ queued', s'.window.Holds queued' ∧ queued = received log' ++ queued') ∧
      (∀ k, free k s = true → ∃ log' s', Runs s log' s' ∧ accepted log' = [] ∧ received log' = queued) ∧
      (s.ready = [] → ∀ k, (∀ deadline, s.phase k = .receiving deadline → s.is_closed = false ∧ queued = []) ∧
        ∀ item deadline, s.phase k = .sending item deadline → s.is_closed = false ∧ queued.length = capacity) := by
  obtain ⟨queued, hsound, hframe, hbalanced, hraised⟩ :=
    runs_sound (sound_new K T overflow hcapacity) (Ledger.balanced_new) hruns
  have hsame : s.capacity = capacity := hframe.capacity
  refine ⟨queued, hsound.holds, hbalanced.order, fun hpolicy => ?_, hbalanced.count,
    fun honce x why hin => refused_never hbalanced.order honce hin, hsame ▸ hsound.room, hraised, fun hclosed log' s' hruns' => ?_,
    fun k hk => ?_, fun hready k => ⟨fun deadline hk => ?_, fun item deadline hk => ?_⟩⟩
  · refine hbalanced.all ?_
    by_contra hdrops
    have hover : s.overflow = overflow := hframe.overflow
    have hdropping := hsound.dropping hdrops
    rw [hover] at hdropping
    rcases hpolicy with rfl | rfl <;> simp at hdropping
  · obtain ⟨queued', hsound', hclosed', haccepted, hxs⟩ := runs_closed hsound hclosed hruns'
    exact ⟨hclosed', haccepted, queued', hsound'.holds, hxs⟩
  · obtain ⟨log', s', hruns', hreceived, haccepted, -⟩ := runs_drain queued hsound hk
    exact ⟨log', s', hruns', haccepted, hreceived⟩
  · have hrest := hsound.at_rest hready (by rw [hk]; rfl)
    refine ⟨hrest.1, length_eq_zero_iff.mp ?_⟩
    rw [← hsound.count]
    exact hrest.2
  · have hrest := hsound.at_rest hready (by rw [hk]; rfl)
    have havail := hrest.2
    have hroom := hsound.room
    rw [avail, hsound.count] at havail
    exact ⟨hrest.1, by omega⟩

/-- A queue of one item, which drops the oldest: a receiver parks, two items are sent, and the receiver is resumed with
the second. -/
theorem channel_accounts_dropped :
    ∃ s : State ℕ ℕ, Runs (new ℕ ℕ 1 .drop_oldest) [.sent 5 true [], .sent 6 true [], .received 6] s ∧ s.drops = 1 ∧
      ∃ queued, s.window.Holds queued ∧ [5, 6].length = ([6] ++ queued).length + 1 := by
  have hrun : (run (new ℕ ℕ 1 .drop_oldest) [.receive 0 none 0 0, .send 1 5 none 0 0, .try_send 6, .resume 0 0]).map
      (fun (s, log) => (s.drops, log)) = some (1, [.sent 5 true [], .sent 6 true [], .received 6]) := by decide +kernel
  obtain ⟨⟨s, log⟩, hrun, h⟩ := map_eq_some_iff.mp hrun
  obtain ⟨hdrops, rfl⟩ := Prod.mk.inj h
  have hruns := Runs.of_run _ hrun
  obtain ⟨queued, hholds, -, -, hcount, -⟩ := channel_accounts ℕ ℕ 1 .drop_oldest (by norm_num) _ s hruns
  rw [hdrops] at hcount
  exact ⟨s, hruns, hdrops, queued, hholds, hcount⟩

/-- At every step of a run a task that waits is in one place, and waiters lack no notice for what there is to look at. -/
theorem notices_suffice {capacity : ℕ} (overflow : Overflow) (h : 0 < capacity ∧ capacity < 2 ^ 63)
    (hruns : Runs (new K T capacity overflow) log s) :
    Placed s ∧ ∀ g, s.waiters g ≠ [] → s.is_closed = false ∧ avail s g ≤ pending g s := by
  obtain ⟨xs, hs, -⟩ := runs_sound (sound_new K T overflow h) Ledger.balanced_new hruns
  refine ⟨hs.placed, fun g hne => ⟨?_, hs.enough g hne⟩⟩
  rw [← Bool.not_eq_true]
  exact fun hclosed => hne (hs.shut hclosed g)

theorem notices_suffice_parked : ∃ s : State ℕ ℕ, s.waiters .not_empty = [0] ∧ Placed s ∧
    ∀ g, s.waiters g ≠ [] → s.is_closed = false ∧ avail s g ≤ pending g s :=
  ⟨_, rfl, notices_suffice .block ⟨Nat.one_pos, by decide⟩ (.snoc (.nil _) (a := .receive 0 none 0 0) rfl)⟩

/-!
A queue that is fed by a sender who never waits.

Its tasks only receive. So what it accepts is what was sent while it was open, and a send that
answers false is one that found it closed or closed it.
-/

variable {K T : Type} [DecidableEq K]

/-- No task waits to send. -/
def Receivers (s : State K T) : Prop := ∀ k, (s.phase k).gate ≠ some .not_full

/-- The acts of tasks that only receive. -/
def reads : Act K T → Bool
  | .receive .. => true
  | .resume .. => true
  | .answer .. => true
  | .kill .. => true
  | _ => false

/-- What such an act does not do. -/
structure Quiet (s s' : State K T) (e : Option (Event T)) : Prop where
  receivers : Receivers s'
  closed : s'.is_closed = s.is_closed
  none : ∀ item ok why, e ≠ some (.sent item ok why)

theorem receivers_update {s : State K T} (h : Receivers s) (k : K) {phase : Phase T} (hphase : phase.gate ≠ some .not_full) :
    ∀ k', (update s.phase k phase k').gate ≠ some .not_full := by
  intro k'
  by_cases hk : k' = k
  · rwa [hk, update_self]
  · rw [update_of_ne hk]
    exact h k'

theorem park_quiet {s : State K T} (h : Receivers s) (k : K) (deadline : Option ℤ) {s' : State K T} {e : Option (Event T)}
    (hstep : park .not_empty k (.receiving deadline) s = (s', e)) : Quiet s s' e := by
  rw [park] at hstep
  split at hstep
  · cases hstep
    exact ⟨h, rfl, nofun⟩
  · cases hstep
    exact ⟨receivers_update h k (by simp [Phase.gate]), rfl, nofun⟩

theorem receive_round_quiet (h : Receivers s) (hstep : receive_round k deadline now s = (s', e)) : Quiet s s' e := by
  rw [receive_round] at hstep
  have hsame : ∀ {e : Option (Event T)}, (∀ item ok why, e ≠ some (.sent item ok why)) → Quiet s s e := fun he => ⟨h, rfl, he⟩
  by_cases hcount : s.window.count = 0
  · rw [if_pos hcount] at hstep
    by_cases hclosed : s.is_closed = true
    · rw [if_pos hclosed] at hstep
      cases hstep
      exact hsame nofun
    · rw [if_neg hclosed] at hstep
      by_cases hexpired : expired deadline now = true
      · rw [if_pos hexpired] at hstep
        cases hstep
        exact hsame nofun
      · rw [if_neg hexpired] at hstep
        exact park_quiet h k deadline hstep
  · rw [if_neg hcount] at hstep
    rcases hpop : pop s with _ | ⟨item, s₁⟩
    · rw [hpop] at hstep
      cases hstep
      exact hsame nofun
    · rw [hpop] at hstep
      cases hstep
      obtain ⟨⟨_, window⟩, -, hs₁⟩ := map_eq_some_iff.mp hpop
      obtain ⟨-, rfl⟩ := Prod.mk.inj hs₁
      obtain ⟨-, hphase, hclosed, -⟩ := notify_one_frame .not_full { s with window }
      exact ⟨fun k => by rw [hphase]; exact h k, hclosed, nofun⟩

theorem step_quiet {s : State K T} (h : Receivers s) {a : Act K T} (ha : reads a = true) {s' : State K T} {e : Option (Event T)}
    (hstep : step s a = some (s', e)) : Quiet s s' e := by
  cases a with
  | receive k timeout now now' =>
    rw [step] at hstep
    by_cases hfree : free k s = true
    · rw [if_pos hfree] at hstep
      exact receive_round_quiet h (some.inj hstep)
    · rw [if_neg hfree] at hstep
      cases hstep
  | resume k now =>
    obtain ⟨w, -, hstep⟩ := map_eq_some_iff.mp hstep
    rw [resume] at hstep
    have hnext : Receivers { s with ready := s.ready.erase w, phase := update s.phase w.task .running } :=
      receivers_update h w.task (by simp [Phase.gate])
    rcases hphase : s.phase w.task with _ | ⟨item, deadline⟩ | deadline | _
    · rw [hphase] at hstep
      cases hstep
      exact ⟨h, rfl, by simp⟩
    · exact absurd (by rw [hphase]; rfl) (h w.task)
    · rw [hphase] at hstep
      dsimp only at hstep
      by_cases hok : w.ok = true
      · rw [if_pos hok] at hstep
        obtain ⟨hreceivers, hclosed, hnone⟩ := receive_round_quiet hnext hstep
        exact ⟨hreceivers, hclosed, hnone⟩
      · rw [if_neg hok] at hstep
        cases hstep
        exact ⟨hnext, rfl, by simp⟩
    · rw [hphase] at hstep
      cases hstep
      exact ⟨h, rfl, by simp⟩
  | answer k why =>
    rw [step] at hstep
    by_cases hparked : parked k s = true
    · rw [if_pos hparked] at hstep
      cases hstep
      exact ⟨h, rfl, by simp⟩
    · rw [if_neg hparked] at hstep
      cases hstep
  | kill k =>
    have hkilled : Quiet s (kill k s) none := by
      obtain ⟨-, hphase, hclosed, -⟩ := hand_on_frame ((s.ready.filter fun w => w.task = k).filterMap Wake.notice)
        { leave k s with ready := s.ready.filter (fun w => w.task ≠ k), phase := update s.phase k .killed }
      refine ⟨fun k' => ?_, hclosed, by simp⟩
      have hsame : (kill k s).phase = update s.phase k .killed := hphase
      rw [hsame]
      exact receivers_update h k (by simp [Phase.gate]) k'
    rw [step] at hstep
    split at hstep
    · cases hstep
    · cases hstep
      exact hkilled
  | send => cases ha
  | try_send => cases ha
  | close => cases ha

/-! ## A queue fed so -/

/-- A queue that may drop but not block, in a run of tasks that only receive. -/
structure Fed (log : List (Event T)) (s : State K T) : Prop where
  receivers : Receivers s
  policy : s.overflow ≠ .block
  run : ∃ capacity, (0 < capacity ∧ capacity < 2 ^ 63) ∧ Runs (new K T capacity s.overflow) log s

theorem fed_new {capacity : ℕ} {overflow : Overflow} (hcapacity : 0 < capacity ∧ capacity < 2 ^ 63) (hpolicy : overflow ≠ .block) :
    Fed [] (new K T capacity overflow) :=
  ⟨fun _ => by simp [new, Phase.gate], hpolicy, capacity, hcapacity, .nil _⟩

variable {s : State K T} {log : List (Event T)}

theorem Fed.sound (h : Fed log s) : ∃ xs, Sound (fun _ => 0) s xs ∧
    (Ledger.mk (accepted log) (received log) xs s.drops).Balanced := by
  obtain ⟨capacity, hcapacity, hruns⟩ := h.run
  obtain ⟨xs, hsound, -, hbalanced, -⟩ := runs_sound (sound_new K T s.overflow hcapacity) (Ledger.balanced_new) hruns
  exact ⟨xs, hsound, hbalanced⟩

theorem Fed.step (h : Fed log s) {a : Act K T} {s' : State K T} {e : Option (Event T)} (hstep : step s a = some (s', e))
    (hreceivers : Receivers s') (hoverflow : s'.overflow = s.overflow) : Fed (log ++ e.toList) s' := by
  obtain ⟨capacity, hcapacity, hruns⟩ := h.run
  refine ⟨hreceivers, hoverflow ▸ h.policy, capacity, hcapacity, ?_⟩
  rw [hoverflow]
  exact .snoc hruns hstep

theorem Fed.reads (h : Fed log s) {a : Act K T} (ha : reads a = true) {s' : State K T} {e : Option (Event T)}
    (hstep : Channel.step s a = some (s', e)) :
    Fed (log ++ e.toList) s' ∧ s'.is_closed = s.is_closed ∧ s'.overflow = s.overflow ∧ accepted e.toList = [] := by
  have hquiet := step_quiet h.receivers ha hstep
  obtain ⟨xs, hsound, -⟩ := h.sound
  obtain ⟨ys, hstepped⟩ := step_stepped hsound hstep
  exact ⟨h.step hstep hquiet.receivers hstepped.frame.overflow, hquiet.closed, hstepped.frame.overflow,
    (hstepped.effect.accepts_none fun item why => hquiet.none item true why).1⟩

omit [DecidableEq K] in
theorem close_twice (s : State K T) : close (close s) = close s := by
  rw [close, if_pos (close_closed s)]

theorem Fed.close (h : Fed log s) : Fed log (close s) := by
  obtain ⟨hframe, hphase, -⟩ := close_frame s
  have hstep : Channel.step s .close = some (Channel.close s, none) := rfl
  have hfed := h.step hstep (fun k => by rw [hphase]; exact h.receivers k) hframe.overflow
  rwa [toList_none, append_nil] at hfed

/-- A send to an open queue is accepted and leaves it open, or is refused and has closed it; it is accepted where there
is room. -/
theorem Fed.try_send (h : Fed log s) (hopen : s.is_closed = false) (item : T) :
    ∃ ok why s', try_send item s = (s', some (.sent item ok why)) ∧ Fed (log ++ [.sent item ok why]) s' ∧
      s'.is_closed = !ok ∧ s'.overflow = s.overflow ∧ s'.capacity = s.capacity ∧ (s.window.count < s.capacity → ok = true ∧
        s'.window.count = s.window.count + 1) := by
  obtain ⟨xs, hsound, -⟩ := h.sound
  obtain ⟨o, s', hoffer, hframe, hphase, hcases⟩ := hsound.offer rfl (Nat.zero_le _) item
  have hreceivers : Receivers s' := fun k => by
    rw [hphase]
    exact h.receivers k
  have hcount := hsound.count
  have hfed : ∀ {ok : Bool} {why : Bytes}, Channel.try_send item s = (s', some (.sent item ok why)) →
      Fed (log ++ [.sent item ok why]) s' := by
    intro ok why hsend
    have hstep : Channel.step s (.try_send item) = some (s', some (.sent item ok why)) := congrArg some hsend
    exact h.step hstep hreceivers hframe.overflow
  rcases hcases with ⟨rfl, ⟨-, hopen'⟩, ys, hsound', hput⟩ | ⟨rfl, hclosed', -, -, hfull⟩ | ⟨rfl, rfl, -, hblock, -⟩
  · have hsend : Channel.try_send item s = (s', some (.sent item true [])) := by rw [Channel.try_send, hoffer]
    refine ⟨true, [], s', hsend, hfed hsend, hopen', hframe.overflow, hframe.capacity, fun hroom => ⟨rfl, ?_⟩⟩
    rw [Channel.offer, if_neg (by rw [hopen]; exact Bool.false_ne_true), if_pos hroom] at hoffer
    obtain ⟨-, hs'⟩ := Prod.mk.inj hoffer
    have hpush := hsound.push (fun _ => 0) (by omega) item (Nat.le_refl 0) (Nat.zero_le _)
    rw [hs'] at hpush
    rw [hpush.count, hcount, length_append]
    rfl
  · have hsend : Channel.try_send item s = (s', some (.sent item false CLOSED)) := by rw [Channel.try_send, hoffer]
    refine ⟨false, CLOSED, s', hsend, hfed hsend, hclosed', hframe.overflow, hframe.capacity, fun hroom => ?_⟩
    have := hfull hopen
    omega
  · exact absurd hblock h.policy

end Cosmic.Channel
