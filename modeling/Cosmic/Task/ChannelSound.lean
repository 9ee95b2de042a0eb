/-
What holds of a queue and its waiters between the steps of any run.

The point is the notices. A notifier that has a waiter owes it nothing: for every item a receiver is
parked beside, and for all the room a sender is, a notice is under way to a task that will look.
-/
import Cosmic.Task.Channel
import Cosmic.Base.Ledger

set_option autoImplicit false

namespace Cosmic.Channel

open Cosmic.Base List

variable {K T : Type}

/-! ## Where the tasks are -/

/-- The notifier a task waits on. -/
def Phase.gate : Phase T → Option Gate
  | .running => none
  | .sending .. => some .not_full
  | .receiving .. => some .not_empty
  | .killed => none

def woken (s : State K T) : List K := s.ready.map Wake.task

/-- Each task that waits is in its notifier or has been woken, once; and a notice is for one that waits on its notifier. -/
structure Placed (s : State K T) : Prop where
  woken_once : (woken s).Nodup
  waiters_once : ∀ g, (s.waiters g).Nodup
  parked : ∀ g, ∀ k ∈ s.waiters g, (s.phase k).gate = some g ∧ k ∉ woken s
  waits : ∀ w ∈ s.ready, (s.phase w.task).gate ≠ none
  notices : ∀ w ∈ s.ready, ∀ g, w.notice = some g → w.ok = true ∧ (s.phase w.task).gate = some g
  covered : ∀ k g, (s.phase k).gate = some g → k ∈ s.waiters g ∨ k ∈ woken s

theorem Placed.wake {s : State K T} (h : Placed s) (g : Gate) (moved : List K) {ks : List K} (hperm : (s.waiters g).Perm (moved ++ ks))
    (make : K → Wake K) (htask : ∀ k, (make k).task = k)
    (hnotice : ∀ k g', (make k).notice = some g' → (make k).ok = true ∧ g' = g) :
    Placed { s with waiters := Function.update s.waiters g ks, ready := s.ready ++ moved.map make } := by
  have hmap : (moved.map make).map Wake.task = moved := by
    rw [map_map, show Wake.task ∘ make = id from funext htask, map_id]
  have hwoken : woken { s with waiters := Function.update s.waiters g ks, ready := s.ready ++ moved.map make } =
      woken s ++ moved := by
    rw [woken, map_append, hmap]
    rfl
  have honce : (moved ++ ks).Nodup := hperm.nodup_iff.mp (h.waiters_once g)
  have hmoved : ∀ k ∈ moved, (s.phase k).gate = some g ∧ k ∉ woken s := fun k hk =>
    h.parked g k (hperm.mem_iff.mpr (mem_append_left _ hk))
  obtain ⟨honce₁, honce₂, hapart⟩ := nodup_append.mp honce
  constructor
  · rw [hwoken]
    exact nodup_append.mpr ⟨h.woken_once, honce₁, fun a ha b hb hab => (hmoved b hb).2 (hab ▸ ha)⟩
  · intro g'
    dsimp only
    by_cases hsame : g' = g
    · subst hsame
      rwa [Function.update_self]
    · rw [Function.update_of_ne hsame]
      exact h.waiters_once g'
  · intro g' k hk
    dsimp only at hk
    have hold : k ∈ s.waiters g' ∧ k ∉ moved := by
      by_cases hsame : g' = g
      · subst hsame
        rw [Function.update_self] at hk
        exact ⟨hperm.mem_iff.mpr (mem_append_right _ hk), fun hin => hapart k hin k hk rfl⟩
      · rw [Function.update_of_ne hsame] at hk
        refine ⟨hk, fun hin => hsame ?_⟩
        exact Option.some.inj ((h.parked g' k hk).1.symm.trans (hmoved k hin).1)
    obtain ⟨hgate, hnew⟩ := h.parked g' k hold.1
    rw [hwoken, mem_append]
    exact ⟨hgate, fun hor => hor.elim hnew hold.2⟩
  · intro w hw
    rcases mem_append.mp hw with hw | hw
    · exact h.waits w hw
    · obtain ⟨k, hk, rfl⟩ := mem_map.mp hw
      rw [htask, (hmoved k hk).1]
      exact Option.some_ne_none g
  · intro w hw g' hg'
    rcases mem_append.mp hw with hw | hw
    · exact h.notices w hw g' hg'
    obtain ⟨k, hk, rfl⟩ := mem_map.mp hw
    obtain ⟨hok, rfl⟩ := hnotice k g' hg'
    refine ⟨hok, ?_⟩
    dsimp only
    rw [htask]
    exact (hmoved k hk).1
  · intro k g' hgate
    rw [hwoken, mem_append]
    dsimp only
    rcases h.covered k g' hgate with hin | hin
    · by_cases hsame : g' = g
      · subst hsame
        rw [Function.update_self]
        rcases mem_append.mp (hperm.mem_iff.mp hin) with hin | hin
        · exact .inr (.inr hin)
        · exact .inl hin
      · rw [Function.update_of_ne hsame]
        exact .inl hin
    · exact .inr (.inl hin)

/-! ## The invariant -/

/-- What a waiter of a notifier looks for: items, or room. -/
def avail (s : State K T) : Gate → ℕ
  | .not_empty => s.window.count
  | .not_full => s.capacity - s.window.count

def pending (g : Gate) (s : State K T) : ℕ := s.ready.countP fun w => w.notice = some g

/-- The queue holds `xs`, and a notifier with a waiter lacks at most `debt` notices for what there is to look at. -/
structure Sound (debt : Gate → ℕ) (s : State K T) (xs : List T) : Prop where
  holds : s.window.Holds xs
  room : xs.length ≤ s.capacity
  capacity : 0 < s.capacity ∧ s.capacity < 2 ^ 63
  placed : Placed s
  shut : s.is_closed = true → ∀ g, s.waiters g = []
  enough : ∀ g, s.waiters g ≠ [] → avail s g ≤ pending g s + debt g
  dropping : s.drops ≠ 0 → s.overflow = .drop_oldest ∨ s.overflow = .drop_newest

theorem sound_new (K T : Type) {capacity : ℕ} (overflow : Overflow) (h : 0 < capacity ∧ capacity < 2 ^ 63) :
    Sound (fun _ => 0) (new K T capacity overflow) [] where
  holds := Window.holds_new
  room := Nat.zero_le _
  capacity := h
  placed :=
    { woken_once := nodup_nil
      waiters_once := fun _ => nodup_nil
      parked := nofun
      waits := nofun
      notices := nofun
      covered := fun _ _ hg => absurd hg (by simp [new, Phase.gate]) }
  shut _ _ := rfl
  enough _ hne := absurd rfl hne
  dropping hne := absurd rfl hne

variable {debt debt' : Gate → ℕ} {s : State K T} {xs : List T}

theorem Sound.count (h : Sound debt s xs) : s.window.count = xs.length := h.holds.count

theorem Sound.weaken (h : Sound debt s xs) (hle : ∀ g, debt g ≤ debt' g) : Sound debt' s xs :=
  { h with enough := fun g hne => (h.enough g hne).trans (Nat.add_le_add_left (hle g) _) }

theorem Sound.of_window (h : Sound debt s xs) (debt' : Gate → ℕ) {window : Window T} {ys : List T} (drops : ℕ) (hholds : window.Holds ys)
    (hroom : ys.length ≤ s.capacity) (hdrops : drops ≠ 0 → s.overflow = .drop_oldest ∨ s.overflow = .drop_newest)
    (hempty : ys.length + debt .not_empty ≤ xs.length + debt' .not_empty)
    (hfull : xs.length + debt .not_full ≤ ys.length + debt' .not_full) :
    Sound debt' { s with window, drops } ys where
  holds := hholds
  room := hroom
  capacity := h.capacity
  placed := ⟨h.placed.woken_once, h.placed.waiters_once, h.placed.parked, h.placed.waits, h.placed.notices, h.placed.covered⟩
  shut := h.shut
  dropping := hdrops
  enough g hne := by
    have hg := h.enough g hne
    cases g with
    | not_empty =>
      rw [avail, h.count] at hg
      rw [avail, hholds.count]
      exact (by omega : ys.length ≤ pending .not_empty s + debt' .not_empty)
    | not_full =>
      rw [avail, h.count] at hg
      rw [avail, hholds.count]
      exact (by omega : s.capacity - ys.length ≤ pending .not_full s + debt' .not_full)

/-! ## Notices -/

theorem Sound.notify_one (h : Sound debt s xs) (g : Gate) (hg : debt g ≤ debt' g + 1) (hle : ∀ g', g' ≠ g → debt g' ≤ debt' g') :
    Sound debt' (notify_one g s) xs := by
  rw [Channel.notify_one]
  rcases hw : s.waiters g with _ | ⟨k, ks⟩
  · refine { h with enough := fun g' hne => ?_ }
    have hother : g' ≠ g := by
      rintro rfl
      exact hne hw
    exact (h.enough g' hne).trans (Nat.add_le_add_left (hle g' hother) _)
  · refine { h with placed := ?_, shut := fun hclosed => ?_, enough := fun g' hne => ?_ }
    · exact h.placed.wake g [k] (by rw [hw]; rfl) (fun k => ⟨k, true, [], some g⟩) (fun _ => rfl)
        fun _ _ hg' => ⟨rfl, (Option.some.inj hg').symm⟩
    · exact absurd (h.shut hclosed g) (by rw [hw]; exact cons_ne_nil _ _)
    have hpending : pending g' { s with
        waiters := Function.update s.waiters g ks, ready := s.ready ++ [⟨k, true, [], some g⟩] } =
        pending g' s + if g = g' then 1 else 0 := by
      rw [pending, countP_append, countP_singleton]
      simp [pending]
    rw [hpending]
    by_cases hsame : g' = g
    · subst hsame
      have := h.enough g' (by rw [hw]; exact cons_ne_nil _ _)
      rw [if_pos rfl]
      exact (by omega : avail s g' ≤ pending g' s + 1 + debt' g')
    · dsimp only at hne
      rw [Function.update_of_ne hsame] at hne
      have := h.enough g' hne
      have := hle g' hsame
      rw [if_neg (Ne.symm hsame)]
      exact (by omega : avail s g' ≤ pending g' s + 0 + debt' g')

theorem Placed.notify_all (h : Placed s) (g : Gate) : Placed (notify_all g s) :=
  h.wake g (s.waiters g) (by rw [append_nil]) (fun k => ⟨k, true, [], none⟩) (fun _ => rfl) nofun

theorem Sound.close (h : Sound debt s xs) : Sound debt' (close s) xs := by
  rw [Channel.close]
  by_cases hclosed : s.is_closed = true
  · rw [if_pos hclosed]
    exact { h with enough := fun g hne => absurd (h.shut hclosed g) hne }
  rw [if_neg hclosed]
  have hnone : ∀ g, (notify_all .not_full (notify_all .not_empty { s with is_closed := true })).waiters g = [] := by
    intro g
    cases g <;> rfl
  have hplaced : Placed { s with is_closed := true } :=
    ⟨h.placed.woken_once, h.placed.waiters_once, h.placed.parked, h.placed.waits, h.placed.notices, h.placed.covered⟩
  exact ⟨h.holds, h.room, h.capacity, (hplaced.notify_all _).notify_all _, fun _ => hnone,
    fun g hne => absurd (hnone g) hne, h.dropping⟩

/-! ## What the operations do -/

/-- What becomes of the queue, and of the number dropped, as an item is queued or a policy settles it. -/
inductive Put (o : Overflow) (item : T) : List T → ℕ → List T → ℕ → Prop where
  | queued (xs : List T) (drops : ℕ) : Put o item xs drops (xs ++ [item]) drops
  | displaced (ho : o = .drop_oldest) (x : T) (xs : List T) (drops : ℕ) : Put o item (x :: xs) drops (xs ++ [item]) (drops + 1)
  | discarded (ho : o = .drop_newest) (xs : List T) (drops : ℕ) : Put o item xs drops xs (drops + 1)

/-- The same of a whole step, by what was answered in it. -/
inductive Effect (o : Overflow) : Option (Event T) → List T → ℕ → List T → ℕ → Prop where
  | idle (xs : List T) (drops : ℕ) : Effect o none xs drops xs drops
  | sent {item : T} {xs ys : List T} {drops drops' : ℕ} (h : Put o item xs drops ys drops') :
      Effect o (some (.sent item true [])) xs drops ys drops'
  | refused (item : T) (why : Bytes) (xs : List T) (drops : ℕ) : Effect o (some (.sent item false why)) xs drops xs drops
  | received (item : T) (xs : List T) (drops : ℕ) : Effect o (some (.received item)) (item :: xs) drops xs drops
  | missed (why : Bytes) (xs : List T) (drops : ℕ) : Effect o (some (.missed why)) xs drops xs drops
  | raised (xs : List T) (drops : ℕ) : Effect o (some (.raised WAIT_KILLED)) xs drops xs drops

/-- What a step leaves as it was. -/
structure Frame (s s' : State K T) : Prop where
  capacity : s'.capacity = s.capacity
  overflow : s'.overflow = s.overflow
  closed : s.is_closed = true → s'.is_closed = true

theorem Frame.refl (s : State K T) : Frame s s := ⟨rfl, rfl, id⟩

theorem Frame.trans {s s' s'' : State K T} (h : Frame s s') (h' : Frame s' s'') : Frame s s'' :=
  ⟨h'.capacity.trans h.capacity, h'.overflow.trans h.overflow, h'.closed ∘ h.closed⟩

theorem notify_one_frame (g : Gate) (s : State K T) : Frame s (notify_one g s) ∧ (notify_one g s).phase = s.phase ∧
    (notify_one g s).is_closed = s.is_closed ∧ (notify_one g s).drops = s.drops := by
  rw [notify_one]
  cases s.waiters g with
  | nil => exact ⟨.refl s, rfl, rfl, rfl⟩
  | cons k ks => exact ⟨⟨rfl, rfl, id⟩, rfl, rfl, rfl⟩

theorem close_frame (s : State K T) : Frame s (close s) ∧ (close s).phase = s.phase ∧ (close s).drops = s.drops := by
  rw [close]
  split_ifs
  · exact ⟨.refl s, rfl, rfl⟩
  · exact ⟨⟨rfl, rfl, fun _ => rfl⟩, rfl, rfl⟩

theorem close_closed (s : State K T) : (close s).is_closed = true := by
  rw [close]
  split_ifs with hclosed
  · exact hclosed
  · rfl

theorem Sound.push (h : Sound debt s xs) (debt' : Gate → ℕ) (hroom : xs.length < s.capacity) (item : T)
    (hempty : debt .not_empty ≤ debt' .not_empty) (hfull : debt .not_full ≤ debt' .not_full + 1) :
    Sound debt' (push item s) (xs ++ [item]) := by
  have hcapacity := h.capacity.2
  have hlength : (xs ++ [item]).length = xs.length + 1 := by rw [length_append]; rfl
  have hput := h.of_window (fun g => debt' g + if g = .not_empty then 1 else 0) s.drops
    (h.holds.push item (by omega)) (by omega) h.dropping (by rw [hlength, if_pos rfl]; omega)
    (by rw [hlength, if_neg Gate.noConfusion]; omega)
  exact hput.notify_one .not_empty (by rw [if_pos rfl]) fun g' hg' => by rw [if_neg hg']; exact le_rfl

theorem Sound.pop {x : T} (h : Sound debt s (x :: xs)) : ∃ window, Channel.pop s = some (x, { s with window }) ∧
      ∀ drops, (drops ≠ 0 → s.overflow = .drop_oldest ∨ s.overflow = .drop_newest) →
        ∀ debt' : Gate → ℕ, debt .not_empty ≤ debt' .not_empty + 1 → debt .not_full + 1 ≤ debt' .not_full →
          Sound debt' { s with window, drops } xs := by
  obtain ⟨window, hpop, hholds⟩ := h.holds.pop
  have hroom := h.room
  rw [length_cons] at hroom
  refine ⟨window, by rw [Channel.pop, hpop]; rfl, fun drops hdrops debt' hempty hfull => ?_⟩
  exact h.of_window debt' drops hholds (by omega) hdrops (by rw [length_cons]; omega) (by rw [length_cons]; omega)

theorem Sound.offer (h : Sound debt s xs) (hempty : debt .not_empty = 0) (hfull : debt .not_full ≤ 1) (item : T) :
    ∃ o s', offer item s = (o, s') ∧ Frame s s' ∧ s'.phase = s.phase ∧
      (o = .queued ∧ (s.is_closed = false ∧ s'.is_closed = false) ∧
          (∃ ys, Sound (fun _ => 0) s' ys ∧ Put s.overflow item xs s.drops ys s'.drops) ∨
        o = .closed ∧ s'.is_closed = true ∧ s'.drops = s.drops ∧ Sound (fun _ => 0) s' xs ∧ (s.is_closed = false → xs.length = s.capacity) ∨
        o = .full ∧ s' = s ∧ s.is_closed = false ∧ s.overflow = .block ∧ Sound (fun _ => 0) s xs ∧ xs.length = s.capacity) := by
  have hcount := h.count
  have hroom := h.room
  rw [Channel.offer]
  rcases hclosed : s.is_closed with _ | _
  · rw [if_neg Bool.false_ne_true]
    by_cases hlt : s.window.count < s.capacity
    · rw [if_pos hlt]
      obtain ⟨hframe, hphase, hopen, hdrops⟩ := notify_one_frame .not_empty { s with window := s.window.push item }
      refine ⟨_, _, rfl, ⟨hframe.capacity, hframe.overflow, hframe.closed⟩, hphase,
        .inl ⟨rfl, ⟨rfl, hopen.trans hclosed⟩, _, h.push _ (by omega) item (by omega) (by omega), ?_⟩⟩
      rw [Channel.push, hdrops]
      exact .queued xs s.drops
    · rw [if_neg hlt]
      have hlength : xs.length = s.capacity := by omega
      -- a full queue has no room, so nothing is lacking for it
      have hsettled : Sound (fun _ => 0) s xs := by
        refine { h with enough := fun g hne => ?_ }
        have hg := h.enough g hne
        cases g with
        | not_empty => rwa [hempty] at hg
        | not_full =>
          rw [avail, hcount]
          omega
      rcases hover : s.overflow with _ | _ | _ | _
      · exact ⟨_, _, rfl, .refl s, rfl, .inr (.inr ⟨rfl, rfl, rfl, rfl, hsettled, hlength⟩)⟩
      · cases xs with
        | nil =>
          have := h.capacity.1
          rw [length_nil] at hlength
          omega
        | cons x xs =>
          obtain ⟨window, hpop, hafter⟩ := hsettled.pop
          rw [hpop]
          have hsound := hafter (s.drops + 1) (fun _ => .inl hover) (fun g => if g = .not_full then 1 else 0)
            (Nat.zero_le _) (Nat.le_refl 1)
          rw [length_cons] at hlength
          have hpush := hsound.push (fun _ => 0) (by dsimp only; omega) item (Nat.le_refl 0) (Nat.le_refl 1)
          obtain ⟨hframe, hphase, hopen, hdrops⟩ := notify_one_frame .not_empty
            { s with window := window.push item, drops := s.drops + 1 }
          refine ⟨_, _, rfl, ⟨hframe.capacity, hframe.overflow, hframe.closed⟩, hphase,
            .inl ⟨rfl, ⟨rfl, hopen.trans hclosed⟩, _, hpush, ?_⟩⟩
          rw [Channel.push, hdrops]
          exact .displaced rfl x xs s.drops
      · have hdropped := hsettled.of_window (fun _ => 0) (s.drops + 1) h.holds h.room
          (fun _ => .inr hover) le_rfl le_rfl
        exact ⟨_, { s with drops := s.drops + 1 }, by rw [hover, hclosed], ⟨rfl, rfl, id⟩, rfl,
          .inl ⟨rfl, ⟨rfl, hclosed⟩, xs, hdropped, .discarded rfl xs s.drops⟩⟩
      · obtain ⟨hframe, hphase, hdrops⟩ := close_frame s
        exact ⟨_, _, rfl, hframe, hphase, .inr (.inl ⟨rfl, close_closed s, hdrops, h.close, fun _ => hlength⟩)⟩
  · rw [if_pos rfl]
    exact ⟨_, _, rfl, .refl s, rfl, .inr (.inl ⟨rfl, hclosed, rfl,
      { h with enough := fun g hne => absurd (h.shut hclosed g) hne }, nofun⟩)⟩

/-! ## What the run does to a task -/

variable [DecidableEq K]

omit [DecidableEq K] in
theorem Placed.not_waiting (h : Placed s) {k : K} (hk : (s.phase k).gate = none) : (∀ g, k ∉ s.waiters g) ∧ k ∉ woken s := by
  constructor
  · intro g hin
    rw [(h.parked g k hin).1] at hk
    exact absurd hk (Option.some_ne_none g)
  · intro hin
    obtain ⟨w, hw, rfl⟩ := mem_map.mp hin
    exact h.waits w hw hk

/-- A task that waits on nothing parks in a notifier. -/
theorem Placed.park (h : Placed s) {k : K} (hk : (s.phase k).gate = none) {g : Gate} {phase : Phase T} (hphase : phase.gate = some g) :
    Placed { s with waiters := Function.update s.waiters g (s.waiters g ++ [k]), phase := Function.update s.phase k phase } := by
  obtain ⟨hout, hnew⟩ := h.not_waiting hk
  have hother : ∀ w ∈ s.ready, w.task ≠ k := fun w hw heq => hnew (mem_map.mpr ⟨w, hw, heq⟩)
  constructor
  · exact h.woken_once
  · intro g'
    dsimp only
    by_cases hsame : g' = g
    · subst hsame
      rw [Function.update_self]
      exact nodup_append.mpr ⟨h.waiters_once g', nodup_singleton k, fun a ha b hb hab =>
        hout g' (by rw [mem_singleton] at hb; rw [← hb, ← hab]; exact ha)⟩
    · rw [Function.update_of_ne hsame]
      exact h.waiters_once g'
  · intro g' k' hk'
    dsimp only at hk' ⊢
    by_cases hsame : k' = k
    · subst hsame
      have hg : g' = g := by
        by_contra hne
        rw [Function.update_of_ne hne] at hk'
        exact hout g' hk'
      rw [Function.update_self, hg]
      exact ⟨hphase, hnew⟩
    · have hold : k' ∈ s.waiters g' := by
        by_cases hg : g' = g
        · subst hg
          rw [Function.update_self, mem_append, mem_singleton] at hk'
          exact hk'.resolve_right hsame
        · rwa [Function.update_of_ne hg] at hk'
      rw [Function.update_of_ne hsame]
      exact h.parked g' k' hold
  · intro w hw
    dsimp only
    rw [Function.update_of_ne (hother w hw)]
    exact h.waits w hw
  · intro w hw g' hg'
    dsimp only
    rw [Function.update_of_ne (hother w hw)]
    exact h.notices w hw g' hg'
  · intro k' g' hgate
    dsimp only at hgate ⊢
    by_cases hsame : k' = k
    · subst hsame
      rw [Function.update_self, hphase] at hgate
      cases hgate
      rw [Function.update_self]
      exact .inl (mem_append_right _ mem_cons_self)
    · rw [Function.update_of_ne hsame] at hgate
      rcases h.covered k' g' hgate with hin | hin
      · by_cases hg : g' = g
        · subst hg
          rw [Function.update_self]
          exact .inl (mem_append_left _ hin)
        · rw [Function.update_of_ne hg]
          exact .inl hin
      · exact .inr hin

theorem Placed.remove (h : Placed s) (k : K) (phase : Phase T) (hphase : phase.gate = none) :
    Placed { leave k s with ready := s.ready.filter (fun w => w.task ≠ k), phase := Function.update s.phase k phase } := by
  have hmem : ∀ w, w ∈ s.ready.filter (fun w => w.task ≠ k) ↔ w ∈ s.ready ∧ w.task ≠ k := by
    intro w
    rw [List.mem_filter, decide_eq_true_eq]
  have hwaiter : ∀ g k', k' ∈ (leave k s).waiters g ↔ k' ∈ s.waiters g ∧ k' ≠ k := by
    intro g k'
    rw [leave, List.mem_filter, decide_eq_true_eq]
  have hsub : ((s.ready.filter fun w => w.task ≠ k).map Wake.task).Sublist (woken s) := (filter_sublist).map _
  constructor
  · exact h.woken_once.sublist hsub
  · exact fun g => (h.waiters_once g).sublist filter_sublist
  · intro g k' hk'
    obtain ⟨hin, hne⟩ := (hwaiter g k').mp hk'
    obtain ⟨hgate, hnew⟩ := h.parked g k' hin
    dsimp only
    rw [Function.update_of_ne hne]
    exact ⟨hgate, fun hin => hnew (hsub.subset hin)⟩
  · intro w hw
    obtain ⟨hin, hne⟩ := (hmem w).mp hw
    dsimp only
    rw [Function.update_of_ne hne]
    exact h.waits w hin
  · intro w hw g hg
    obtain ⟨hin, hne⟩ := (hmem w).mp hw
    dsimp only
    rw [Function.update_of_ne hne]
    exact h.notices w hin g hg
  · intro k' g hgate
    dsimp only at hgate
    have hne : k' ≠ k := by
      rintro rfl
      rw [Function.update_self, hphase] at hgate
      exact absurd hgate.symm (Option.some_ne_none g)
    rw [Function.update_of_ne hne] at hgate
    rcases h.covered k' g hgate with hin | hin
    · exact .inl ((hwaiter g k').mpr ⟨hin, hne⟩)
    · obtain ⟨w, hw, htask⟩ := mem_map.mp hin
      exact .inr (mem_map.mpr ⟨w, (hmem w).mpr ⟨hw, htask ▸ hne⟩, htask⟩)

theorem Placed.erase (h : Placed s) {w : Wake K} (hw : w ∈ s.ready) :
    s.ready.erase w = s.ready.filter (fun w' => w'.task ≠ w.task) := by
  have honce : (s.ready.map Wake.task).Nodup := h.woken_once
  rw [honce.of_map.erase_eq_filter]
  refine filter_congr fun w' hw' => ?_
  by_cases htask : w'.task = w.task
  · have hsame : w' = w := inj_on_of_nodup_map honce hw' hw htask
    simp [hsame]
  · have hne : w' ≠ w := fun hsame => htask (by rw [hsame])
    simp [hne, htask]

theorem pending_remove (k : K) (g : Gate) (s : State K T) :
    pending g s = (s.ready.filter fun w => w.task ≠ k).countP (fun w => w.notice = some g) +
      ((s.ready.filter fun w => w.task = k).filterMap Wake.notice).count g := by
  rw [pending]
  induction s.ready with
  | nil => rfl
  | cons w ready ih =>
    rw [countP_cons, ih]
    by_cases htask : w.task = k
    · cases hn : w.notice with
      | none => simp [htask, hn]
      | some g' =>
        by_cases hg : g' = g
        · simp [htask, hn, hg]
          omega
        · simp [htask, hn, hg]
    · simp [htask, countP_cons]
      omega

theorem waiters_left {k : K} {g : Gate} (hne : (leave k s).waiters g ≠ []) : s.waiters g ≠ [] := by
  intro hnil
  refine hne ?_
  rw [Channel.leave]
  dsimp only
  rw [hnil]
  rfl

theorem Sound.answer (h : Sound debt s xs) {k : K} (hk : parked k s = true) (why : Bytes) : Sound debt (answer k why s) xs := by
  have hparked : ∃ g, k ∈ s.waiters g := by
    rw [Channel.parked, Bool.or_eq_true, contains_iff_mem, contains_iff_mem] at hk
    exact hk.elim (fun hk => ⟨_, hk⟩) fun hk => ⟨_, hk⟩
  obtain ⟨g, hk⟩ := hparked
  have hwaiters : (Channel.leave k s).waiters = Function.update s.waiters g ((s.waiters g).erase k) := by
    funext g'
    by_cases hg : g' = g
    · subst hg
      rw [Function.update_self, Channel.leave, (h.placed.waiters_once g').erase_eq_filter]
      exact filter_congr fun k' _ => by by_cases hk' : k' = k <;> simp [hk']
    · rw [Function.update_of_ne hg, Channel.leave]
      refine List.filter_eq_self.mpr fun k' hk' => decide_eq_true ?_
      rintro rfl
      exact hg (Option.some.inj ((h.placed.parked g' k' hk').1.symm.trans (h.placed.parked g k' hk).1))
  have hplaced := h.placed.wake g [k] (perm_cons_erase hk) (fun k => ⟨k, false, why, none⟩) (fun _ => rfl) nofun
  rw [← hwaiters] at hplaced
  refine ⟨h.holds, h.room, h.capacity, hplaced, fun hclosed g' => ?_, fun g' hne => ?_, h.dropping⟩
  · exact absurd (h.shut hclosed g) (ne_nil_of_mem hk)
  · have hpending : pending g' (Channel.answer k why s) = pending g' s := by
      rw [pending, Channel.answer, countP_append]
      rfl
    rw [hpending]
    exact h.enough g' (waiters_left hne)

omit [DecidableEq K] in
theorem Sound.hand_on (lost : List Gate) : ∀ {s : State K T} {debt : Gate → ℕ}, Sound (fun g => lost.count g + debt g) s xs →
    Sound debt (lost.foldl (fun s g => Channel.notify_one g s) s) xs := by
  induction lost with
  | nil =>
    intro s debt h
    exact h.weaken fun g => by rw [count_nil, Nat.zero_add]
  | cons g lost ih =>
    intro s debt h
    rw [foldl_cons]
    refine ih (h.notify_one g ?_ fun g' hne => ?_)
    · rw [count_cons_self]
      omega
    · rw [count_cons_of_ne (Ne.symm hne)]

omit [DecidableEq K] in
theorem hand_on_frame (lost : List Gate) : ∀ (s : State K T),
    Frame s (lost.foldl (fun s g => notify_one g s) s) ∧ (lost.foldl (fun s g => notify_one g s) s).phase = s.phase ∧
      (lost.foldl (fun s g => notify_one g s) s).is_closed = s.is_closed ∧
        (lost.foldl (fun s g => notify_one g s) s).drops = s.drops := by
  induction lost with
  | nil => exact fun s => ⟨.refl s, rfl, rfl, rfl⟩
  | cons g lost ih =>
    intro s
    obtain ⟨hframe, hphase, hclosed, hdrops⟩ := notify_one_frame g s
    obtain ⟨hframe', hphase', hclosed', hdrops'⟩ := ih (notify_one g s)
    exact ⟨hframe.trans hframe', hphase'.trans hphase, hclosed'.trans hclosed, hdrops'.trans hdrops⟩

theorem Sound.kill (h : Sound debt s xs) (k : K) : Sound debt (kill k s) xs := by
  rw [Channel.kill]
  refine Sound.hand_on _ ⟨h.holds, h.room, h.capacity, h.placed.remove k _ rfl, fun hclosed g => ?_, fun g hne => ?_, h.dropping⟩
  · rw [Channel.leave]
    dsimp only
    rw [h.shut hclosed g]
    rfl
  · have hg := h.enough g (waiters_left hne)
    rw [pending_remove k g s] at hg
    exact (by omega : avail s g ≤ (s.ready.filter fun w => w.task ≠ k).countP (fun w => w.notice = some g) +
      (((s.ready.filter fun w => w.task = k).filterMap Wake.notice).count g + debt g))

theorem Sound.taken (h : Sound (fun _ => 0) s xs) {w : Wake K} (hw : w ∈ s.ready) :
    Sound (fun g => if w.notice = some g then 1 else 0)
      { s with ready := s.ready.erase w, phase := Function.update s.phase w.task .running } xs := by
  have hleave : leave w.task s = s := by
    have hout : ∀ g, w.task ∉ s.waiters g := fun g hin =>
      (h.placed.parked g w.task hin).2 (mem_map.mpr ⟨w, hw, rfl⟩)
    have hwaiters : (fun g => (s.waiters g).filter fun k => k ≠ w.task) = s.waiters := by
      funext g
      refine List.filter_eq_self.mpr fun k hk => decide_eq_true ?_
      rintro rfl
      exact hout g hk
    rw [leave, hwaiters]
  have hplaced := h.placed.remove w.task .running rfl
  rw [hleave, ← h.placed.erase hw] at hplaced
  refine ⟨h.holds, h.room, h.capacity, hplaced, h.shut, fun g hne => ?_, h.dropping⟩
  have hg := h.enough g hne
  have hpending : pending g s = (s.ready.erase w).countP (fun w => w.notice = some g) + if w.notice = some g then 1 else 0 := by
    rw [pending, (perm_cons_erase hw).countP_eq, countP_cons]
    simp
  rwa [hpending, Nat.add_zero] at hg

end Cosmic.Channel
