/-
What a client that comes back is owed, and that replay gives it.

The rings of several topics are merged by the order of publishing. So where no ring has lost an event since the one the
client names, what is replayed is what was published to those topics after it.
-/
import Cosmic.Web.Hub
import Cosmic.Base.Parts

set_option autoImplicit false

namespace Cosmic.Sse

open Cosmic.Base List

/-! ## All that was published -/

def published_of : Out → Option (Bytes × Entry)
  | .published name entry => some (name, entry)
  | _ => none

/-- What was published, oldest first. -/
def history (log : List Out) : List (Bytes × Entry) := log.filterMap published_of

def on (names : List Bytes) (published : List (Bytes × Entry)) : List Event :=
  (published.filter fun p => names.contains p.1).map fun p => p.2.event

def entries (published : List (Bytes × Entry)) (n : Bytes) : List Entry := (published.filter fun p => p.1 = n).map Prod.snd

theorem on_append (names : List Bytes) (xs ys : List (Bytes × Entry)) : on names (xs ++ ys) = on names xs ++ on names ys := by
  rw [on, filter_append, map_append, on, on]

theorem entries_append (xs ys : List (Bytes × Entry)) (n : Bytes) : entries (xs ++ ys) n = entries xs n ++ entries ys n := by
  rw [entries, filter_append, map_append, entries, entries]

theorem history_append (log out : List Out) : history (log ++ out) = history log ++ history out := filterMap_append

def Numbered (published : List (Bytes × Entry)) (n : ℕ) : Prop := published.map (fun p => p.2.seq) = range' 1 n

theorem Numbered.push {published : List (Bytes × Entry)} {n : ℕ} (h : Numbered published n) (name : Bytes) (event : Event) :
    Numbered (published ++ [(name, { seq := n + 1, event })]) (n + 1) := by
  rw [Numbered, map_append, h, range'_concat]
  simp [Nat.add_comm]

theorem Numbered.increasing {published : List (Bytes × Entry)} {n : ℕ} (h : Numbered published n) :
    published.Pairwise fun p p' => p.2.seq < p'.2.seq := by
  rw [← pairwise_map, h]
  exact pairwise_lt_range'

/-! ## Rings merged -/

variable {names : List Bytes}

theorem entries_perm (honce : names.Nodup) (published : List (Bytes × Entry)) :
    (names.flatMap (entries published)).Perm ((published.filter fun p => names.contains p.1).map Prod.snd) := by
  induction names with
  | nil => simp
  | cons n names ih =>
    obtain ⟨hout, honce⟩ := nodup_cons.mp honce
    have hsplit := filter_append_perm (fun p => decide (p.1 = n)) (published.filter fun p => (n :: names).contains p.1)
    have hfirst : (published.filter fun p => (n :: names).contains p.1).filter (fun p => p.1 = n) =
        published.filter fun p => p.1 = n := by
      rw [filter_filter]
      refine filter_congr fun p _ => ?_
      by_cases hp : p.1 = n <;> simp [hp]
    have hrest : (published.filter fun p => (n :: names).contains p.1).filter (fun p => !decide (p.1 = n)) =
        published.filter fun p => names.contains p.1 := by
      rw [filter_filter]
      refine filter_congr fun p _ => ?_
      by_cases hp : p.1 = n
      · rw [hp]
        simp [hout]
      · simp [hp]
    rw [hfirst, hrest] at hsplit
    rw [flatMap_cons]
    refine (List.Perm.append_left _ (ih honce)).trans ?_
    rw [entries, ← map_append]
    exact hsplit.map Prod.snd

variable {all : List Entry}

theorem sorted_eq {later : List Entry} (hperm : later.Perm all) (hall : all.Pairwise fun a b => a.seq < b.seq) :
    later.insertionSort (fun a b => a.seq ≤ b.seq) = all := by
  have hsort : (later.insertionSort fun a b => a.seq ≤ b.seq).Pairwise fun a b => a.seq ≤ b.seq := pairwise_insertionSort _ _
  refine List.Perm.eq_of_pairwise ?_ hsort ?_ ((perm_insertionSort _ _).trans hperm)
  · intro a b ha hb hab hba
    have hapart : (all.map Entry.seq).Nodup := (pairwise_map.mpr hall).imp Nat.ne_of_lt
    have hmem : a ∈ all := (((perm_insertionSort _ _).trans hperm).mem_iff).mp ha
    exact inj_on_of_nodup_map hapart hmem hb (Nat.le_antisymm hab hba)
  · exact hall.imp Nat.le_of_lt

/-! ## What a topic's ring holds of it -/

variable {K : Type} {h : State K} {published : List (Bytes × Entry)}

def contents (topic : Topic) : List Entry × ℕ := (topic.ring.held.getD [], topic.ring.evicted)

/-- A ring in order: what it holds, after what it has lost. -/
structure Ordered (limit : ℕ) (topic : Topic) (all gone : List Entry) : Prop where
  held : topic.ring.held.isSome = true
  all : 0 < limit → gone ++ (contents topic).1 = all
  none : limit = 0 → (contents topic).1 = []
  evicted : (contents topic).2 = (gone.getLast?.map Entry.seq).getD 0
  full : 0 < limit → gone ≠ [] → (contents topic).1.length = limit

variable {n : Bytes} {topic : Topic}

theorem ordered_of (hr : Recalls h (entries published)) (htopic : h.topics.lookup n = some topic) :
    ∃ gone, Ordered h.replay topic (entries published n) gone := by
  obtain ⟨gone, held, hkeeps, hall, hnone⟩ := hr n
  have hring : ring_of n h = topic.ring := by rw [ring_of, topic_of, htopic]; rfl
  rw [hring] at hkeeps
  have hheld : (contents topic).1 = held := by rw [contents, hkeeps.held]; rfl
  refine ⟨gone, by rw [hkeeps.held]; rfl, fun hlimit => ?_, fun hlimit => ?_, hkeeps.evicted, fun hlimit hgone => ?_⟩
  · rw [hheld]
    exact (hall hlimit).1
  · rw [hheld]
    exact (hnone hlimit).2
  · rw [hheld]
    exact (hall hlimit).2.2 hgone

theorem entries_of_none (hr : Recalls h (entries published)) (hlimit : 0 < h.replay)
    (htopic : h.topics.lookup n = none) :
    entries published n = [] := by
  obtain ⟨gone, held, hkeeps, hall, -⟩ := hr n
  have hring : ring_of n h = .new := by rw [ring_of, topic_of, htopic]; rfl
  rw [hring] at hkeeps
  have hlast := hkeeps.last
  rw [show (Backlog.new : Backlog Entry).last = 0 from rfl] at hlast
  rw [← (hall hlimit).1]
  exact append_eq_nil_iff.mpr ⟨length_eq_zero_iff.mp (by omega), length_eq_zero_iff.mp (by omega)⟩

theorem rings_of (hr : Recalls h (entries published)) (names : List Bytes) :
    rings names h = some ((names.filterMap h.topics.lookup).map contents) := by
  rw [rings, mapM_eq_some_iff, map_map]
  refine map_congr_left fun topic htopic => ?_
  obtain ⟨n, -, hn⟩ := mem_filterMap.mp htopic
  obtain ⟨gone, hordered⟩ := ordered_of hr hn
  obtain ⟨held, hheld⟩ := Option.isSome_iff_exists.mp hordered.held
  rw [Function.comp_apply, contents, hheld]
  rfl

theorem flatMap_rings {β : Type} {f : List Entry × ℕ → List β} {g : Bytes → List β} (names : List Bytes)
    (hsome : ∀ n ∈ names, ∀ topic, h.topics.lookup n = some topic → f (contents topic) = g n)
    (hnone : ∀ n ∈ names, h.topics.lookup n = none → g n = []) :
    ((names.filterMap h.topics.lookup).map contents).flatMap f = names.flatMap g := by
  induction names with
  | nil => rfl
  | cons n names ih =>
    have hrest := ih (fun m hm => hsome m (mem_cons_of_mem _ hm)) fun m hm => hnone m (mem_cons_of_mem _ hm)
    rw [flatMap_cons, ← hrest]
    rcases hn : h.topics.lookup n with _ | topic
    · rw [filterMap_cons, hn, hnone n mem_cons_self hn, nil_append]
    · rw [filterMap_cons, hn, map_cons, flatMap_cons, hsome n mem_cons_self topic hn]

variable {limit : ℕ} {gone : List Entry}

theorem Ordered.later (h : Ordered limit topic all gone) (hlimit : 0 < limit)
    (hall : all.Pairwise fun a b => a.seq < b.seq) {found : ℕ} (hfound : ¬found < (contents topic).2) :
    (contents topic).1.filter (fun entry => found < entry.seq) = all.filter fun entry => found < entry.seq := by
  have hgone : gone.filter (fun entry => decide (found < entry.seq)) = [] := by
    rw [filter_eq_nil_iff]
    intro a ha
    rw [h.evicted] at hfound
    rcases eq_nil_or_concat gone with hnil | ⟨init, last, hconcat⟩
    · rw [hnil] at ha
      cases ha
    rw [hconcat, concat_eq_append, getLast?_concat, Option.map_some, Option.getD_some] at hfound
    rw [← h.all hlimit, hconcat, concat_eq_append] at hall
    have hlast := (pairwise_append.mp (pairwise_append.mp hall).1).2.2
    rw [hconcat, concat_eq_append, mem_append, mem_singleton] at ha
    have hle : a.seq ≤ last.seq := ha.elim (fun ha => (hlast a ha last (mem_singleton_self _)).le) fun ha => ha ▸ le_rfl
    simp only [decide_eq_true_eq]
    omega
  rw [← h.all hlimit, filter_append, hgone, nil_append]

variable {e : Entry}

theorem later_of {X Y : List (Bytes × Entry)} (hall : (X ++ (n, e) :: Y).Pairwise fun p p' => p.2.seq < p'.2.seq) :
    (X ++ (n, e) :: Y).filter (fun p => e.seq < p.2.seq) = Y := by
  obtain ⟨-, hrest, hbefore⟩ := pairwise_append.mp hall
  obtain ⟨hafter, -⟩ := pairwise_cons.mp hrest
  have hX : X.filter (fun p => decide (e.seq < p.2.seq)) = [] := filter_eq_nil_iff.mpr fun p hp => by
    have hlt : p.2.seq < e.seq := hbefore p hp (n, e) mem_cons_self
    simp only [decide_eq_true_eq]
    omega
  have hY : Y.filter (fun p => decide (e.seq < p.2.seq)) = Y := List.filter_eq_self.mpr fun p hp => by
    simpa using hafter p hp
  rw [filter_append, hX, nil_append, filter_cons_of_neg (by simp), hY]

theorem entries_filter (xs : List (Bytes × Entry)) (n : Bytes) (q : Entry → Bool) :
    (entries xs n).filter q = entries (xs.filter fun p => q p.2) n := by
  rw [entries, entries, filter_map, filter_filter, filter_filter]
  exact congrArg _ (filter_congr fun p _ => Bool.and_comm _ _)

theorem entries_increasing (hincreasing : published.Pairwise fun p p' => p.2.seq < p'.2.seq) (n : Bytes) :
    (entries published n).Pairwise fun a b => a.seq < b.seq :=
  pairwise_map.mpr (hincreasing.filter _)

variable {last : ℕ}

theorem replayed_spec (hr : Recalls h (entries published)) (hnumbered : Numbered published last)
    (honce : names.Nodup) {after : Bytes} {later : List Event}
    (hlater : replayed ((names.filterMap h.topics.lookup).map contents) after = some later) :
    ∃ X n e Y, published = X ++ (n, e) :: Y ∧ n ∈ names ∧ e.event.id = some after ∧ later = on names Y := by
  have hincreasing := hnumbered.increasing
  rw [replayed] at hlater
  split at hlater
  · cases hlater
  rename_i found hnewest
  obtain ⟨e, he, rfl⟩ := mem_map.mp (max?_mem hnewest)
  obtain ⟨pair, hpair, hfind⟩ := mem_filterMap.mp he
  obtain ⟨topic, htopic, rfl⟩ := mem_map.mp hpair
  obtain ⟨n, hn, hlookup⟩ := mem_filterMap.mp htopic
  have hid : e.event.id = some after := by simpa using find?_some hfind
  have hin : e ∈ (contents topic).1 := mem_reverse.mp (mem_of_find?_eq_some hfind)
  obtain ⟨gone, hordered⟩ := ordered_of hr hlookup
  -- a ring that holds one keeps some
  have hlimit : 0 < h.replay := Nat.pos_of_ne_zero fun hzero => by
    rw [hordered.none hzero] at hin
    cases hin
  have hentry : e ∈ entries published n := by
    rw [← hordered.all hlimit]
    exact mem_append_right _ hin
  obtain ⟨p, hp, hpe⟩ := mem_map.mp hentry
  obtain ⟨hmem, hpn⟩ := List.mem_filter.mp hp
  obtain rfl : p = (n, e) := Prod.ext (by simpa using hpn) hpe
  obtain ⟨X, Y, rfl⟩ := append_of_mem hmem
  refine ⟨X, n, e, Y, rfl, hn, hid, ?_⟩
  split at hlater
  · cases hlater
  rename_i hgap
  have hheld : ∀ m ∈ names, ∀ topic, h.topics.lookup m = some topic → ¬e.seq < (contents topic).2 := by
    intro m hm topic htopic hlost
    refine hgap (any_eq_true.mpr ⟨contents topic, mem_map_of_mem (mem_filterMap.mpr ⟨m, hm, htopic⟩), ?_⟩)
    exact decide_eq_true hlost
  have hafter : ∀ m, (entries (X ++ (n, e) :: Y) m).filter (fun entry => e.seq < entry.seq) = entries Y m := fun m => by
    rw [entries_filter, later_of hincreasing]
  have hflat := flatMap_rings (h := h) (f := fun p : List Entry × ℕ => p.1.filter fun entry => e.seq < entry.seq)
    (g := entries Y) names (fun m hm topic htopic => ?_) fun m hm htopic => ?_
  · have hperm := entries_perm honce Y
    rw [← hflat] at hperm
    have hsorted := sorted_eq hperm (pairwise_map.mpr
      (((pairwise_cons.mp (pairwise_append.mp hincreasing).2.1).2).filter _))
    have hall : some (((Y.filter fun p => names.contains p.1).map Prod.snd).map Entry.event) = some later := by
      rwa [← hsorted]
    rw [← Option.some.inj hall, map_map, on]
    rfl
  · obtain ⟨gone', hordered'⟩ := ordered_of hr htopic
    exact (hordered'.later hlimit (entries_increasing hincreasing m) (hheld m hm topic htopic)).trans (hafter m)
  · rw [← hafter, entries_of_none hr hlimit htopic]
    rfl

/-! ## Gaps -/

/-- More than `limit` events of one of the topics from one on. -/
def Overrun (limit : ℕ) (names : List Bytes) (published : List (Bytes × Entry)) : Prop :=
  ∃ m ∈ names, limit < (entries published m).length

theorem Ordered.room {before since : List Entry} (h : Ordered limit topic (before ++ since) gone)
    (hlimit : 0 < limit) (hroom : since.length ≤ limit) : gone <+: before ∧ since <:+ (contents topic).1 := by
  have hall := h.all hlimit
  rcases append_eq_append_iff.mp hall with ⟨held, hbefore, hheld⟩ | ⟨lost, hgone, hsince⟩
  · exact ⟨⟨held, hbefore.symm⟩, ⟨held, hheld.symm⟩⟩
  rcases lost with _ | ⟨x, lost⟩
  · rw [append_nil] at hgone
    exact ⟨hgone ▸ prefix_rfl, hsince ▸ suffix_rfl⟩
  · -- what is held would be a part of `since`, and as long as the ring
    have hfull := h.full hlimit (by rw [hgone]; simp)
    have hlength := congrArg List.length hsince
    rw [length_append, length_cons] at hlength
    omega

theorem find_last (h : Ordered limit topic all gone) (hlimit : 0 < limit)
    (hall : all.Pairwise fun a b => a.seq < b.seq) (he : e ∈ (contents topic).1) {id : Bytes}
    (hid : e.event.id = some id) :
    ∃ e', (contents topic).1.reverse.find? (fun entry => entry.event.id = some id) = some e' ∧ e.seq ≤ e'.seq := by
  rw [← h.all hlimit] at hall
  have hheld := pairwise_reverse.mpr (pairwise_append.mp hall).2.1
  have hin := mem_reverse.mpr he
  rcases hfind : (contents topic).1.reverse.find? fun entry => entry.event.id = some id with _ | e'
  · exact absurd (find?_eq_none.mp hfind e hin) (by simp [hid])
  obtain ⟨-, later, older, hsplit, hlater⟩ := find?_eq_some_iff_append.mp hfind
  refine ⟨e', hfind, ?_⟩
  rw [hsplit] at hin hheld
  rcases mem_append.mp hin with hin | hin
  · exact absurd (hlater e hin) (by simp [hid])
  · rcases mem_cons.mp hin with rfl | hin
    · exact le_rfl
    · exact ((pairwise_cons.mp (pairwise_append.mp hheld).2.1).1 e hin).le

theorem replayed_gap (hr : Recalls h (entries published)) (hnumbered : Numbered published last) {after : Bytes}
    (hgap : replayed ((names.filterMap h.topics.lookup).map contents) after = none) {X Y : List (Bytes × Entry)}
    (hsplit : published = X ++ (n, e) :: Y) (hn : n ∈ names) (hid : e.event.id = some after) :
    Overrun h.replay names ((n, e) :: Y) := by
  by_contra hover
  have hroom : ∀ m ∈ names, (entries ((n, e) :: Y) m).length ≤ h.replay := fun m hm => by
    by_contra hlt
    exact hover ⟨m, hm, Nat.lt_of_not_le hlt⟩
  have hincreasing := hnumbered.increasing
  have hparts : ∀ m, entries published m = entries X m ++ entries ((n, e) :: Y) m := fun m => by rw [hsplit, entries_append]
  have hfirst : e ∈ entries ((n, e) :: Y) n := mem_map.mpr ⟨(n, e), List.mem_filter.mpr ⟨mem_cons_self, by simp⟩, rfl⟩
  have hlimit : 0 < h.replay := (length_pos_of_mem hfirst).trans_le (hroom n hn)
  -- its topic is kept, and its ring still holds it
  rcases hlookup : h.topics.lookup n with _ | topic
  · have hnone := entries_of_none hr hlimit hlookup
    rw [hparts] at hnone
    exact absurd ((append_eq_nil_iff.mp hnone).2 ▸ hfirst) not_mem_nil
  have htopic : contents topic ∈ (names.filterMap h.topics.lookup).map contents :=
    mem_map_of_mem (mem_filterMap.mpr ⟨n, hn, hlookup⟩)
  obtain ⟨gone, hordered⟩ := ordered_of hr hlookup
  have hkept : e ∈ (contents topic).1 := by
    rw [hparts] at hordered
    exact (hordered.room hlimit (hroom n hn)).2.mem hfirst
  obtain ⟨e', hfind, hle⟩ := find_last hordered hlimit (entries_increasing hincreasing n) hkept hid
  rw [replayed] at hgap
  split at hgap
  · rename_i hnewest
    have hnone := max?_eq_none_iff.mp hnewest
    exact absurd (hnone ▸ mem_map_of_mem (mem_filterMap.mpr ⟨_, htopic, hfind⟩)) not_mem_nil
  rename_i found hnewest
  have hfound : e'.seq ≤ found :=
    (max?_eq_some_iff.mp hnewest).2 _ (mem_map_of_mem (mem_filterMap.mpr ⟨_, htopic, hfind⟩))
  split at hgap
  · rename_i hany
    obtain ⟨pair, hpair, hlost⟩ := any_eq_true.mp hany
    obtain ⟨topic', htopic', rfl⟩ := mem_map.mp hpair
    obtain ⟨m, hm, hlookup'⟩ := mem_filterMap.mp htopic'
    obtain ⟨gone', hordered'⟩ := ordered_of hr hlookup'
    have hevicted := hordered'.evicted
    rw [hparts] at hordered'
    have hbefore := (hordered'.room hlimit (hroom m hm)).1
    have hlost : found < (contents topic').2 := of_decide_eq_true hlost
    rcases eq_nil_or_concat gone' with hnil | ⟨init, lost, hconcat⟩
    · rw [hevicted, hnil] at hlost
      exact absurd hlost (Nat.not_lt_zero _)
    -- what that ring lost last was published before the event
    have hmem : lost ∈ entries X m := hbefore.mem (by rw [hconcat]; simp)
    obtain ⟨p, hp, hpl⟩ := mem_map.mp hmem
    rw [hsplit] at hincreasing
    have hlt := (pairwise_append.mp hincreasing).2.2 p (List.mem_filter.mp hp).1 (n, e) mem_cons_self
    rw [hevicted, hconcat, concat_eq_append, getLast?_concat, Option.map_some, Option.getD_some] at hlost
    rw [hpl] at hlt
    dsimp only at hlt
    omega
  · cases hgap

/-! ## What a subscription starts with -/

/-- What a client that has missed events is sent first: nothing where it names no event; what came after the one it
names; or that it has a gap, where that event or one after it may have left a ring. -/
inductive Starts (limit : ℕ) (published : List (Bytes × Entry)) (names : List Bytes) : Option Bytes → Bool → List Event → Prop where
  | fresh : Starts limit published names none false []
  | resumed (X : List (Bytes × Entry)) (n : Bytes) (e : Entry) (Y : List (Bytes × Entry)) (id : Bytes)
      (hsplit : published = X ++ (n, e) :: Y) (hn : n ∈ names) (hid : e.event.id = some id) :
      Starts limit published names (some id) false (on names Y)
  | missed (id : Bytes) (head : Option Bytes)
      (hgap : ∀ X n e Y, published = X ++ (n, e) :: Y → n ∈ names → e.event.id = some id → Overrun limit names ((n, e) :: Y)) :
      Starts limit published names (some id) true [reset head]

theorem start_of_spec (hr : Recalls h (entries published)) (hnumbered : Numbered published last)
    (honce : names.Nodup) (after : Option Bytes) :
    ∃ start gap, start_of names after h = some (start, gap) ∧ Starts h.replay published names after gap start := by
  rcases after with _ | id
  · exact ⟨[], false, rfl, .fresh⟩
  · rw [start_of, rings_of hr, Option.map_some]
    rcases hlater : replayed ((names.filterMap h.topics.lookup).map contents) id with _ | later
    · exact ⟨_, true, rfl, .missed id _ fun X n e Y => replayed_gap hr hnumbered hlater⟩
    · obtain ⟨X, n, e, Y, hsplit, hn, hid, rfl⟩ := replayed_spec hr hnumbered honce hlater
      exact ⟨_, false, rfl, .resumed X n e Y id hsplit hn hid⟩

end Cosmic.Sse
