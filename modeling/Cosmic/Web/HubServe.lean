/-
What one subscription is owed: what it started with, then what is published to its topics until it ends.

Its queue accepts just that. So what its tasks receive is that too, save what the queue's policy drops and counts.
-/
import Cosmic.Web.HubReplay
import Cosmic.Web.HubSubs
import Mathlib.Data.List.TakeWhile

set_option autoImplicit false

namespace Cosmic.Sse

open Cosmic.Base List Option

/-! ## What is told of one subscription -/

def answered_by (i : ℕ) : Out → Option (Channel.Event Event)
  | .queue j e => if j = i then some e else none
  | _ => none

def begun_by : Out → Option ℕ
  | .subscribed i _ _ _ => some i
  | _ => none

def queue_log (i : ℕ) (log : List Out) : List (Channel.Event Event) := log.filterMap (answered_by i)

/-- What came out before a subscription ended. -/
def live (i : ℕ) (log : List Out) : List Out := log.takeWhile fun o => o ≠ .detached i

theorem queue_log_append (i : ℕ) (log out : List Out) : queue_log i (log ++ out) = queue_log i log ++ queue_log i out :=
  filterMap_append

theorem live_of_not_mem {i : ℕ} {log : List Out} (h : .detached i ∉ log) : live i log = log := by
  refine takeWhile_eq_self_iff.mpr fun o ho => decide_eq_true ?_
  rintro rfl
  exact h ho

theorem live_append_of_not_mem {i : ℕ} {log : List Out} (h : .detached i ∉ log) (out : List Out) :
    live i (log ++ out) = log ++ live i out := by
  have hlog := live_of_not_mem h
  rw [live] at hlog ⊢
  rw [takeWhile_append, hlog, if_pos rfl]
  rfl

theorem live_append_of_mem {i : ℕ} {log : List Out} (h : .detached i ∈ log) (out : List Out) : live i (log ++ out) = live i log := by
  rw [live, takeWhile_append, if_neg, live]
  intro hlength
  have hall : log.takeWhile (fun o => o ≠ .detached i) = log := (List.takeWhile_prefix _).eq_of_length hlength
  rw [← hall] at h
  exact absurd (mem_takeWhile_imp h) (by simp)

variable {K : Type} [DecidableEq K]

structure Serving (limit : ℕ) (overflow : Channel.Overflow) (log : List Out) (i : ℕ) (sub : Sub K) : Prop where
  fed : Channel.Fed (queue_log i log) sub.queue
  overflow : sub.queue.overflow = overflow
  shut : sub.queue.is_closed = !sub.attached
  since : ∃ before after start rest, log = before ++ .subscribed i sub.names after sub.gap :: rest ∧
    Starts limit (history before) sub.names after sub.gap start ∧
      Channel.accepted (queue_log i log) = start ++ on sub.names (history (live i rest)) ∧
        (sub.attached = true ↔ .detached i ∉ rest)

/-- What a step may do to a subscription that is served as it is owed, and what comes out. -/
structure Served (i : ℕ) (out : List Out) (sub sub' : Sub K) : Prop where
  names : sub'.names = sub.names
  gap : sub'.gap = sub.gap
  overflow : sub'.queue.overflow = sub.queue.overflow
  fed : ∀ log, Channel.Fed log sub.queue → Channel.Fed (log ++ queue_log i out) sub'.queue
  shut : sub'.queue.is_closed = !sub'.attached
  accepted : Channel.accepted (queue_log i out) = if sub.attached then on sub.names (history (live i out)) else []
  attached : sub'.attached = true ↔ sub.attached = true ∧ .detached i ∉ out

theorem Serving.step {limit : ℕ} {overflow : Channel.Overflow} {log out : List Out} {i : ℕ} {sub sub' : Sub K}
    (h : Serving limit overflow log i sub) (hs : Served i out sub sub') : Serving limit overflow (log ++ out) i sub' := by
  obtain ⟨before, after, start, rest, hlog, hstarts, haccepted, hattached⟩ := h.since
  refine ⟨?_, hs.overflow.trans h.overflow, hs.shut, before, after, start, rest ++ out, ?_, ?_, ?_, ?_⟩
  · rw [queue_log_append]
    exact hs.fed _ h.fed
  · rw [hlog, hs.names, hs.gap, append_assoc, cons_append]
  · rwa [hs.names, hs.gap]
  · have hout := hs.accepted
    rw [Channel.accepted] at haccepted hout ⊢
    rw [queue_log_append, filterMap_append, haccepted, hout, hs.names]
    by_cases hin : .detached i ∈ rest
    · have hnot : ¬sub.attached = true := fun h => hattached.mp h hin
      rw [if_neg hnot, append_nil, live_append_of_mem hin]
    · rw [if_pos (hattached.mpr hin), live_append_of_not_mem hin, live_of_not_mem hin, history_append, on_append, append_assoc]
  · rw [hs.attached, hattached, mem_append, not_or]

/-! ## What a step does to one -/

section

variable {i : ℕ} {out : List Out} {sub : Sub K}

theorem Served.idle (hshut : sub.queue.is_closed = !sub.attached) (hqueue : queue_log i out = []) (hend : .detached i ∉ out)
    (howed : sub.attached = true → on sub.names (history out) = []) : Served i out sub sub where
  names := rfl
  gap := rfl
  overflow := rfl
  shut := hshut
  fed log h := by
    rwa [hqueue, append_nil]
  accepted := by
    rw [hqueue, live_of_not_mem hend]
    split_ifs with hattached
    · exact (howed hattached).symm
    · rfl
  attached := ⟨fun h => ⟨h, hend⟩, And.left⟩

theorem Served.reads {limit : ℕ} {overflow : Channel.Overflow} {log : List Out} (h : Serving limit overflow log i sub)
    {a : Channel.Act K Event} (ha : Channel.reads a = true) {queue : Channel.State K Event} {e : Option (Channel.Event Event)}
    (hstep : Channel.step sub.queue a = some (queue, e)) : Served i (e.map (Out.queue i)).toList sub { sub with queue } := by
  have hout : queue_log i (e.map (Out.queue i)).toList = e.toList := by
    rcases e with _ | e
    · rfl
    · simp [queue_log, answered_by]
  have hend : .detached i ∉ (e.map (Out.queue i)).toList := by simp
  have hhistory : history (e.map (Out.queue i)).toList = [] := by
    rcases e with _ | e <;> simp [history, published_of]
  obtain ⟨-, hclosed, hoverflow, haccepted⟩ := h.fed.reads ha hstep
  refine ⟨rfl, rfl, hoverflow, fun log hfed => ?_, hclosed.trans h.shut, ?_, ⟨fun h => ⟨h, hend⟩, And.left⟩⟩
  · rw [hout]
    exact (hfed.reads ha hstep).1
  · rw [hout, haccepted, live_of_not_mem hend, hhistory]
    split_ifs <;> rfl

theorem Served.closes (honly : ∀ o ∈ out, ∃ j, o = .detached j) (hend : sub.attached = true → .detached i ∈ out) {sub' : Sub K}
    (hnames : sub'.names = sub.names) (hgap : sub'.gap = sub.gap) (hattached : sub'.attached = false)
    (hqueue : sub'.queue = Channel.close sub.queue) : Served i out sub sub' := by
  have hout : queue_log i out = [] := by
    refine filterMap_eq_nil_iff.mpr fun o ho => ?_
    obtain ⟨j, rfl⟩ := honly o ho
    rfl
  have hhistory : history (live i out) = [] := by
    refine filterMap_eq_nil_iff.mpr fun o ho => ?_
    obtain ⟨j, rfl⟩ := honly o ((List.takeWhile_prefix _).mem ho)
    rfl
  refine ⟨hnames, hgap, ?_, fun log hfed => ?_, ?_, ?_, ?_⟩
  · rw [hqueue]
    exact (Channel.close_frame sub.queue).1.overflow
  · rw [hout, append_nil, hqueue]
    exact hfed.close
  · rw [hqueue, Channel.close_closed, hattached]
    rfl
  · rw [hout, hhistory]
    split_ifs <;> rfl
  · rw [hattached]
    exact ⟨fun h => absurd h Bool.false_ne_true, fun h => absurd (hend h.1) h.2⟩

theorem Served.ends (hshut : sub.queue.is_closed = !sub.attached) {h : State K} (hi : h.subs.lookup i = some sub) (subs : List ℕ)
    {f : Sub K → Sub K} (hnames : (f sub).names = sub.names ∧ (f sub).gap = sub.gap) (hattached : (f sub).attached = false)
    (hqueue : (f sub).queue = Channel.close sub.queue) : Served i (endings h subs) sub (if i ∈ subs then f sub else sub) := by
  have honly : ∀ o ∈ endings h subs, ∃ j, o = .detached j := fun o ho => by
    obtain ⟨j, -, -, rfl⟩ := mem_endings.mp ho
    exact ⟨j, rfl⟩
  have hsub : Sse.attached h i = sub.attached := by
    rw [Sse.attached, hi]
    rfl
  by_cases hin : i ∈ subs
  · rw [if_pos hin]
    exact .closes honly (fun h' => mem_endings.mpr ⟨i, hin, hsub.trans h', rfl⟩) hnames.1 hnames.2 hattached hqueue
  rw [if_neg hin]
  refine .idle hshut (filterMap_eq_nil_iff.mpr fun o ho => ?_) (fun hend => ?_) fun _ => ?_
  · obtain ⟨j, rfl⟩ := honly o ho
    rfl
  · obtain ⟨j, hj, -, heq⟩ := mem_endings.mp hend
    exact hin (Out.detached.inj heq ▸ hj)
  · have hnone : history (endings h subs) = [] := filterMap_eq_nil_iff.mpr fun o ho => by
      obtain ⟨j, rfl⟩ := honly o ho
      rfl
    rw [hnone]
    rfl

/-! ## What publishing does to one -/

omit [DecidableEq K] in
theorem queue_log_answers (i : ℕ) (ev : Event) (h : State K) : ∀ {subs : List ℕ}, subs.Nodup →
    queue_log i (answers (subs.map (told ev h))) = if i ∈ subs then (told ev h i).2.toList else []
  | [], _ => rfl
  | j :: subs, honce => by
      obtain ⟨hout, honce⟩ := nodup_cons.mp honce
      have hrest := queue_log_answers i ev h honce
      rw [map_cons, answers, flatMap_cons, queue_log_append]
      rw [answers] at hrest
      rw [hrest]
      by_cases hij : i = j
      · subst hij
        rw [if_neg hout, if_pos mem_cons_self, append_nil, told]
        cases (h.subs.lookup i).bind fun sub => (Channel.try_send ev sub.queue).2 with
        | none => rfl
        | some e => simp [queue_log, answered_by]
      · have hnone : queue_log i ((told ev h j).2.map (Out.queue (told ev h j).1)).toList = [] := by
          rw [told]
          cases (h.subs.lookup j).bind fun sub => (Channel.try_send ev sub.queue).2 with
          | none => rfl
          | some e => simp [queue_log, answered_by, Ne.symm hij]
        have hmem : i ∈ j :: subs ↔ i ∈ subs := by simp [hij]
        rw [hnone, nil_append]
        simp only [hmem]

/-- The subscriptions whose queues did not take an event. -/
def refusing (sent : List (ℕ × Option (Channel.Event Event))) : List ℕ := (sent.filter fun p => !is_sent p.2).map Prod.fst

omit [DecidableEq K] in
theorem mem_refusing {ev : Event} {h : State K} {subs : List ℕ} {i : ℕ} :
    i ∈ refusing (subs.map (told ev h)) ↔ i ∈ subs ∧ is_sent (told ev h i).2 = false := by
  simp [refusing, told]

theorem history_answers (sent : List (ℕ × Option (Channel.Event Event))) : history (answers sent) = [] := by
  refine filterMap_eq_nil_iff.mpr fun o ho => ?_
  obtain ⟨p, -, ho⟩ := mem_flatMap.mp ho
  obtain ⟨e, -, rfl⟩ := map_eq_some_iff.mp (mem_toList.mp ho)
  rfl

/-- What comes out of publishing an event. -/
def told_of (h h' : State K) (name : Bytes) (entry : Entry) : List Out :=
  endings h' (refusing ((members name h).map (told entry.event h))) ++
    .published name entry :: answers ((members name h).map (told entry.event h))

/-- What publishing makes of a subscription. -/
def sent_to (h : State K) (name : Bytes) (ev : Event) (j : ℕ) (sub : Sub K) : Sub K :=
  let sub := if j ∈ members name h then offered ev sub else sub
  if j ∈ refusing ((members name h).map (told ev h)) then ended sub else sub

omit [DecidableEq K] in
theorem queue_log_endings (i : ℕ) (h : State K) (subs : List ℕ) : queue_log i (endings h subs) = [] := by
  refine filterMap_eq_nil_iff.mpr fun o ho => ?_
  obtain ⟨j, -, -, rfl⟩ := mem_endings.mp ho
  rfl

omit [DecidableEq K] in
theorem history_endings (h : State K) (subs : List ℕ) : history (endings h subs) = [] := by
  refine filterMap_eq_nil_iff.mpr fun o ho => ?_
  obtain ⟨j, -, -, rfl⟩ := mem_endings.mp ho
  rfl

omit [DecidableEq K] in
theorem begun_endings (h : State K) (subs : List ℕ) : (endings h subs).filterMap begun_by = [] := by
  refine filterMap_eq_nil_iff.mpr fun o ho => ?_
  obtain ⟨j, -, -, rfl⟩ := mem_endings.mp ho
  rfl

omit [DecidableEq K] in
theorem begun_told_of (h h' : State K) (name : Bytes) (entry : Entry) : (told_of h h' name entry).filterMap begun_by = [] := by
  refine filterMap_eq_nil_iff.mpr fun o ho => ?_
  rcases mem_append.mp ho with ho | ho
  · obtain ⟨j, -, -, rfl⟩ := mem_endings.mp ho
    rfl
  · rcases mem_cons.mp ho with rfl | ho
    · rfl
    · obtain ⟨p, -, ho⟩ := mem_flatMap.mp ho
      obtain ⟨e, -, rfl⟩ := map_eq_some_iff.mp (mem_toList.mp ho)
      rfl

omit [DecidableEq K] in
theorem queue_log_told_of {h : State K} (hl : Listed h) (h' : State K) (i : ℕ) (name : Bytes) (entry : Entry) :
    queue_log i (told_of h h' name entry) = if i ∈ members name h then (told entry.event h i).2.toList else [] := by
  rw [told_of, queue_log_append, queue_log_endings, nil_append, ← queue_log_answers i entry.event h (hl.once name)]
  rfl

omit [DecidableEq K] in
theorem history_told_of (h h' : State K) (name : Bytes) (entry : Entry) : history (told_of h h' name entry) = [(name, entry)] := by
  have hanswers := history_answers ((members name h).map (told entry.event h))
  rw [history] at hanswers
  rw [told_of, history_append, history_endings, nil_append, history, filterMap_cons, hanswers]
  rfl

omit [DecidableEq K] in
theorem detached_told_of {h h' : State K} (hl : Listed h) (hattached : ∀ j, Sse.attached h' j = Sse.attached h j) (i : ℕ)
    (name : Bytes) (entry : Entry) :
    .detached i ∈ told_of h h' name entry ↔ i ∈ refusing ((members name h).map (told entry.event h)) := by
  have hrest : .detached i ∉ Out.published name entry :: answers ((members name h).map (told entry.event h)) := by
    rw [mem_cons, not_or]
    refine ⟨nofun, fun hmem => ?_⟩
    obtain ⟨p, -, ho⟩ := mem_flatMap.mp hmem
    obtain ⟨e, -, heq⟩ := map_eq_some_iff.mp (mem_toList.mp ho)
    cases heq
  rw [told_of, mem_append, mem_endings]
  constructor
  · intro hor
    obtain ⟨j, hj, -, heq⟩ := hor.resolve_right hrest
    exact Out.detached.inj heq ▸ hj
  · intro hcut
    obtain ⟨sub, hsub, hopen, -⟩ := hl.member (mem_refusing.mp hcut).1
    refine .inl ⟨i, hcut, ?_, rfl⟩
    rwa [hattached, Sse.attached, hsub]

/-- An event published goes to the subscriptions to its topic, and ends those whose queues refuse it. -/
theorem Served.publish {limit : ℕ} {overflow : Channel.Overflow} {log : List Out} (hs : Serving limit overflow log i sub)
    {h h' : State K} (hl : Listed h) (hi : h.subs.lookup i = some sub) (hattached : ∀ j, Sse.attached h' j = Sse.attached h j)
    (name : Bytes) (entry : Entry) : Served i (told_of h h' name entry) sub (sent_to h name entry.event i sub) := by
  have hqueue := queue_log_told_of hl h' i name entry
  have hhistory := history_told_of h h' name entry
  have hend := detached_told_of hl hattached i name entry
  rw [sent_to]
  by_cases hin : i ∈ members name h
  · obtain ⟨sub', hsub', hopen, hname⟩ := hl.member hin
    rw [hi] at hsub'
    cases hsub'
    have hlive : sub.queue.is_closed = false := by rw [hs.shut, hopen]; rfl
    obtain ⟨ok, why, s', hsend, -, hclosed, hoverflow, -, -⟩ := hs.fed.try_send hlive entry.event
    have htold : (told entry.event h i).2 = some (.sent entry.event ok why) := by
      rw [told, hi]
      exact congrArg Prod.snd hsend
    have hoffered : (offered entry.event sub).queue = s' := congrArg Prod.fst hsend
    have hfed : ∀ log, Channel.Fed log sub.queue → Channel.Fed (log ++ [.sent entry.event ok why]) s' := by
      intro log hfed
      obtain ⟨ok', why', s'', hsend', hfed', -⟩ := hfed.try_send hlive entry.event
      rw [hsend] at hsend'
      obtain ⟨rfl, he⟩ := Prod.mk.inj hsend'
      rwa [some.inj he]
    rw [if_pos hin, htold] at hqueue
    rw [if_pos hin]
    by_cases hok : ok = true
    · have hkept : i ∉ refusing ((members name h).map (told entry.event h)) := by
        rw [mem_refusing, htold, hok]
        exact fun h => absurd h.2 (by simp [is_sent])
      rw [if_neg hkept]
      refine ⟨rfl, rfl, by rw [hoffered]; exact hoverflow, fun log h => ?_, ?_, ?_, ?_⟩
      · rw [hqueue, hoffered]
        exact hfed log h
      · rw [hoffered, hclosed, hok]
        exact (congrArg not hopen).symm
      · rw [hqueue, if_pos hopen, live_of_not_mem fun h => hkept (hend.mp h), hhistory, hok]
        simp [Channel.accepted, Channel.Event.accepted, on, hname]
      · exact ⟨fun h => ⟨h, fun h' => hkept (hend.mp h')⟩, And.left⟩
    · have hrefused : ok = false := by simpa using hok
      have hcut : i ∈ refusing ((members name h).map (told entry.event h)) := by
        rw [mem_refusing, htold, hrefused]
        exact ⟨hin, rfl⟩
      -- it has ended before the event was told of
      have hbefore : history (live i (told_of h h' name entry)) = [] := by
        have hends : .detached i ∈ endings h' (refusing ((members name h).map (told entry.event h))) :=
          mem_endings.mpr ⟨i, hcut, by rw [hattached, Sse.attached, hi]; exact hopen, rfl⟩
        rw [told_of, live_append_of_mem hends]
        refine filterMap_eq_nil_iff.mpr fun o ho => ?_
        obtain ⟨j, -, -, rfl⟩ := mem_endings.mp ((List.takeWhile_prefix _).mem ho)
        rfl
      have hshut : (offered entry.event sub).queue.is_closed = true := by rw [hoffered, hclosed, hrefused]; rfl
      have hended : ended (offered entry.event sub) =
          { offered entry.event sub with attached := false, queue := Channel.close (offered entry.event sub).queue } :=
        if_pos hopen
      have hclose : Channel.close s' = s' := by
        rw [← hoffered, Channel.close, if_pos hshut]
      rw [if_pos hcut, hended, hoffered, hclose]
      refine ⟨rfl, rfl, hoverflow, fun log h => ?_, by rw [hclosed, hrefused], ?_, ?_⟩
      · rw [hqueue]
        exact hfed log h
      · rw [hqueue, hbefore, if_pos hopen, hrefused]
        rfl
      · exact ⟨fun h => absurd h Bool.false_ne_true, fun h => absurd (hend.mpr hcut) h.2⟩
  · have hkept : i ∉ refusing ((members name h).map (told entry.event h)) := fun h => hin (mem_refusing.mp h).1
    rw [if_neg hin, if_neg hkept]
    rw [if_neg hin] at hqueue
    refine .idle hs.shut hqueue (fun h => hkept (hend.mp h)) fun hopen => ?_
    have hname : name ∉ sub.names := fun hname => hin ((hl.mem name i).mpr ⟨sub, hi, hopen, hname⟩)
    rw [hhistory]
    simp [on, hname]

end

end Cosmic.Sse
