/-
What a hub's subscribers get of it, over any run.

Every step keeps the invariant: each subscription's queue has accepted what it is owed. From it comes what its tasks
receive, and what the hub keeps.
-/
import Cosmic.Web.HubServe
import Mathlib.Data.List.Dedup

set_option autoImplicit false

namespace Cosmic.Sse

open Cosmic.Base List Except

variable {K : Type} [DecidableEq K]

/-- A hub whose subscriptions are served as they are owed, by all that has come out of it. -/
structure Sound (limit : ℕ) (overflow : Channel.Overflow) (log : List Out) (h : State K) : Prop where
  kept : h.replay = limit
  policed : h.overflow = overflow
  listed : Listed h
  tidy : TidyBut (fun _ => False) h
  recalls : Recalls h (entries (history log))
  numbered : Numbered (history log) h.seq
  policy : h.overflow ≠ .block
  size : 0 < h.queue_size
  serving : ∀ i sub, h.subs.lookup i = some sub → Serving limit overflow log i sub
  quiet : ∀ i, h.subs.lookup i = none → queue_log i log = []
  begun : log.filterMap begun_by = List.range h.next

/-- A hub as it was set up. -/
def Settings (h h' : State K) : Prop :=
  h'.replay = h.replay ∧ h'.overflow = h.overflow ∧ h'.queue_size = h.queue_size ∧ h'.next = h.next

variable {limit : ℕ} {overflow : Channel.Overflow}

variable {log out : List Out} {h h' : State K}

theorem Sound.next (hs : Sound limit overflow log h) (hsettings : Settings h h') (hlisted : Listed h')
    (htidy : TidyBut (fun _ => False) h') (hrecalls : Recalls h' (entries (history (log ++ out))))
    (hnumbered : Numbered (history (log ++ out)) h'.seq) {f : ℕ → Sub K → Sub K}
    (hsubs : ∀ j, h'.subs.lookup j = (h.subs.lookup j).map (f j))
    (hserved : ∀ i sub, h.subs.lookup i = some sub → Served i out sub (f i sub))
    (hquiet : ∀ i, h.subs.lookup i = none → queue_log i out = []) (hbegun : out.filterMap begun_by = []) :
    Sound limit overflow (log ++ out) h' := by
  obtain ⟨hreplay, hoverflow, hsize, hnext⟩ := hsettings
  refine ⟨hreplay.trans hs.kept, hoverflow.trans hs.policed, hlisted, htidy, hrecalls, hnumbered, by rw [hoverflow]; exact hs.policy, by rw [hsize]; exact hs.size,
    fun i sub' hi => ?_, fun i hi => ?_, by rw [filterMap_append, hbegun, append_nil, hnext]; exact hs.begun⟩
  · rw [hsubs] at hi
    obtain ⟨sub, hsub, rfl⟩ := Option.map_eq_some_iff.mp hi
    exact (hs.serving i sub hsub).step (hserved i sub hsub)
  · rw [hsubs, Option.map_eq_none_iff] at hi
    rw [queue_log_append, hs.quiet i hi, hquiet i hi]
    rfl

theorem Sound.op (hs : Sound limit overflow log h) {f : ℕ → Sub K → Sub K} (hop : Op f h h')
    (hhistory : history out = []) (hserved : ∀ i sub, h.subs.lookup i = some sub → Served i out sub (f i sub))
    (hquiet : ∀ i, h.subs.lookup i = none → queue_log i out = []) (hbegun : out.filterMap begun_by = []) :
    Sound limit overflow (log ++ out) h' := by
  have hsame : history (log ++ out) = history log := by rw [history_append, hhistory, append_nil]
  obtain ⟨topics, total, subs, rfl⟩ := hop.same
  refine hs.next ⟨rfl, rfl, rfl, rfl⟩ hop.listed (hop.tidy _ hs.tidy) ?_ ?_ hop.subs hserved hquiet hbegun
  · rw [hsame]
    exact hop.recalls _ hs.recalls
  · rw [hsame]
    exact hs.numbered

theorem Sound.idle (hs : Sound limit overflow log h) : Sound limit overflow (log ++ []) h := by
  rwa [append_nil]

/-! ## Closing -/

variable {log : List Out} {h : State K}

theorem Sound.close_sub (hs : Sound limit overflow log h) (i : ℕ) : Sound limit overflow (log ++ (close_sub i h).2) (close_sub i h).1 := by
  have hone : (Sse.close_sub i h).2 = endings h [i] := by
    rw [close_sub_told, endings, flatMap_singleton]
  rw [hone]
  refine hs.op (close_sub_op hs.listed i) (history_endings h _) (fun j sub hj => ?_)
    (fun j _ => queue_log_endings j h _) (begun_endings h _)
  have hends := Served.ends (hs.serving j sub hj).shut hj [i] (f := closed_sub) (ended_names _) (ended_attached _)
    (closed_sub_queue sub)
  simpa using hends

theorem Sound.close (hs : Sound limit overflow log h) : Sound limit overflow (log ++ (close h).2) (close h).1 := by
  rw [Sse.close]
  have hlisted : Listed { h with shut := true } := ⟨hs.listed.once, hs.listed.mem, hs.listed.fresh, hs.listed.total⟩
  obtain ⟨hop, hout⟩ := close_all_op (h.topics.entries.flatMap fun entry => entry.2.subs).dedup hlisted (nodup_dedup _)
  have hshut : Sound limit overflow log { h with shut := true } :=
    ⟨hs.kept, hs.policed, hlisted, hs.tidy, hs.recalls, hs.numbered, hs.policy, hs.size, hs.serving, hs.quiet, hs.begun⟩
  rw [hout]
  refine hshut.op hop (history_endings _ _) (fun j sub hj => ?_)
    (fun j _ => queue_log_endings j _ _) (begun_endings _ _)
  exact Served.ends (hshut.serving j sub hj).shut hj _ (ended_names _) (ended_attached _) (closed_sub_queue sub)

/-! ## Receiving -/

theorem Sound.queue_step (hs : Sound limit overflow log h) (i : ℕ) {a : Channel.Act K Event}
    (ha : Channel.reads a = true) (hstep : queue_step i a h = some (h', out)) :
    Sound limit overflow (log ++ out) h' := by
  rw [Sse.queue_step] at hstep
  obtain ⟨sub, hi, hstep⟩ := Option.bind_eq_some_iff.mp hstep
  obtain ⟨⟨queue, e⟩, hqueue, hstep⟩ := Option.map_eq_some_iff.mp hstep
  cases hstep
  have hop : Op (fun j sub => if j = i then { sub with queue } else sub) h _ :=
    .queue hs.listed hi queue (if_pos rfl) fun j sub hj => if_neg hj
  have hother : ∀ j, j ≠ i → queue_log j (e.map (Out.queue i)).toList = [] := by
    intro j hj
    cases e with
    | none => rfl
    | some e => simp [queue_log, answered_by, Ne.symm hj]
  have hhistory : history (e.map (Out.queue i)).toList = [] := by
    cases e <;> rfl
  have hbegun : (e.map (Out.queue i)).toList.filterMap begun_by = [] := by
    cases e <;> rfl
  refine hs.op hop hhistory (fun j sub' hj => ?_) (fun j hj => hother j ?_) hbegun
  · by_cases hji : j = i
    · subst hji
      rw [hi] at hj
      cases hj
      rw [if_pos rfl]
      exact .reads (hs.serving j sub hi) ha hqueue
    · rw [if_neg hji]
      refine .idle (hs.serving j sub' hj).shut (hother j hji) (by simp) fun _ => ?_
      rw [hhistory]
      rfl
  · rintro rfl
    rw [hi] at hj
    cases hj

/-! ## Publishing -/

omit [DecidableEq K] in
theorem recalls_published (hr : Recalls h (entries (history log))) {name : Bytes} {entry : Entry} {ring : Backlog Entry}
    (hring : (if 0 < h.replay then (topic_of name h).ring.enter h.replay Entry.seq entry else some (topic_of name h).ring) = some ring)
    (seq : ℕ) : Recalls (set_topic name { topic_of name h with ring } { h with seq }) (entries (history log ++ [(name, entry)])) := by
  intro n
  rw [ring_of, topic_of_set, entries_append]
  by_cases hn : n = name
  · subst hn
    obtain ⟨gone, held, hkeeps, hsome, hnone⟩ := hr n
    have hone : entries [(n, entry)] n = [entry] := by simp [entries]
    rw [if_pos rfl, hone]
    by_cases hlimit : 0 < h.replay
    · rw [if_pos hlimit] at hring
      obtain ⟨hall, hroom, hfull⟩ := hsome hlimit
      obtain ⟨ring', gone', held', henter, hkeeps', hroom', -, hall', hlost⟩ := hkeeps.enter hlimit hroom entry
      have hsame : (topic_of n h).ring.enter h.replay Entry.seq entry = some ring' := henter
      rw [hring] at hsame
      cases hsame
      refine ⟨gone', held', hkeeps', fun _ => ⟨by rw [hall', hall], hroom', fun hgone => ?_⟩, fun hzero => ?_⟩
      · rcases hlost with ⟨hgone', hlt⟩ | hfull'
        · -- nothing was lost before, so the ring was not full
          have := hfull (hgone' ▸ hgone)
          omega
        · exact hfull'
      · exact absurd hzero (Nat.ne_of_gt hlimit)
    · rw [if_neg hlimit] at hring
      cases hring
      exact ⟨gone, held, hkeeps, fun h => absurd h hlimit, hnone⟩
  · have hnothing : entries [(name, entry)] n = [] := by simp [entries, Ne.symm hn]
    rw [if_neg hn, hnothing, append_nil]
    exact hr n

omit [DecidableEq K] in
theorem refusing_nodup {ev : Event} {subs : List ℕ} (honce : subs.Nodup) : (refusing (subs.map (told ev h))).Nodup := by
  have hsame : (subs.map (told ev h)).map Prod.fst = subs := by
    rw [map_map]
    exact map_id subs
  have hsub := (filter_sublist (p := fun p => !is_sent p.2) (l := subs.map (told ev h))).map Prod.fst
  rw [hsame] at hsub
  exact hsub.nodup honce

theorem Sound.published (hs : Sound limit overflow log h) {name : Bytes} {entry : Entry} (hseq : entry.seq = h.seq + 1) {ring : Backlog Entry}
    (hring : (if 0 < h.replay then (topic_of name h).ring.enter h.replay Entry.seq entry else some (topic_of name h).ring) = some ring)
    {h₁ h₂ h₃ : State K} {sent : List (ℕ × Option (Channel.Event Event))} {ended : List Out}
    (hset : h₁ = set_topic name { topic_of name h with ring } { h with seq := h.seq + 1 })
    (hdeliver : deliver entry.event (topic_of name h).subs h₁ = (h₂, sent)) (hcut : detach_all (refusing sent) h₂ = (h₃, ended)) :
    Sound limit overflow (log ++ (ended ++ .published name entry :: answers sent)) (release name h₃) := by
  have hmembers : ∀ n, members n h₁ = members n h := by
    intro n
    rw [hset, members, topic_of_set]
    by_cases hn : n = name
    · rw [if_pos hn, hn]
      rfl
    · rw [if_neg hn]
      rfl
  have hsubs₁ : h₁.subs = h.subs := by rw [hset]; rfl
  have hlisted₁ : Listed h₁ := hs.listed.congr hmembers hsubs₁ (by rw [hset]; rfl) (by rw [hset]; rfl)
  have honce : (topic_of name h).subs.Nodup := hs.listed.once name
  obtain ⟨hop₂, hsent⟩ := deliver_op entry.event (topic_of name h).subs hlisted₁ honce
  rw [hdeliver] at hop₂ hsent
  dsimp only at hop₂ hsent
  have htold : sent = (members name h).map (told entry.event h) := by
    rw [hsent]
    refine map_congr_left fun i _ => ?_
    rw [told, hsubs₁, told]
  obtain ⟨hop₃, hended⟩ := detach_all_op (refusing sent) hop₂.listed (by rw [htold]; exact refusing_nodup (hs.listed.once name))
  rw [hcut] at hop₃ hended
  dsimp only at hop₃ hended
  obtain ⟨hretopic, hreleased⟩ := release_spec name h₃
  obtain ⟨topics, hsame⟩ := hretopic.same
  have hout : ended ++ .published name entry :: answers sent = told_of h h₂ name entry := by
    rw [hended, htold]
    rfl
  have hhistory : history (log ++ (ended ++ .published name entry :: answers sent)) = history log ++ [(name, entry)] := by
    rw [hout, history_append, history_told_of]
  obtain ⟨topics₂, total₂, subs₂, hsame₂⟩ := hop₂.same
  obtain ⟨topics₃, total₃, subs₃, hsame₃⟩ := hop₃.same
  have hsettings : Settings h (release name h₃) := by
    rw [hsame, hsame₃, hsame₂, hset]
    exact ⟨rfl, rfl, rfl, rfl⟩
  have hseq' : (release name h₃).seq = h.seq + 1 := by
    rw [hsame, hsame₃, hsame₂, hset]
    rfl
  have hattached : ∀ j, Sse.attached h₂ j = Sse.attached h j := by
    intro j
    rw [Sse.attached, hop₂.subs, Sse.attached, hsubs₁]
    cases h.subs.lookup j with
    | none => rfl
    | some sub =>
      rw [Option.map_some]
      split_ifs <;> rfl
  refine hs.next hsettings (hop₃.listed.congr hreleased (by rw [hsame]) (by rw [hsame]) (by rw [hsame])) ?_ ?_ ?_
    (f := sent_to h name entry.event) (fun j => ?_) (fun j sub hj => ?_) (fun j hj => ?_) (by rw [hout]; exact begun_told_of h h₂ name entry)
  · have htidy₁ : TidyBut (fun m => m = name ∨ False) h₁ := by
      rw [hset]
      exact TidyBut.set (h := { h with seq := h.seq + 1 }) hs.tidy name _
    exact (hop₃.tidy _ (hop₂.tidy _ htidy₁)).release
  · rw [hhistory]
    refine Recalls.retopic (hop₃.recalls _ (hop₂.recalls _ ?_)) hretopic
    rw [hset]
    exact recalls_published hs.recalls hring _
  · rw [hhistory, hseq']
    have hpush := hs.numbered.push name entry.event
    rw [← hseq] at hpush ⊢
    exact hpush
  · rw [hsame]
    dsimp only
    rw [hop₃.subs, hop₂.subs, hsubs₁, htold, Option.map_map]
    rfl
  · rw [hout]
    exact .publish (hs.serving j sub hj) hs.listed hj hattached name entry
  · rw [hout, queue_log_told_of hs.listed, told, hj]
    split_ifs <;> rfl

theorem Sound.publish (hs : Sound limit overflow log h) {name : Bytes} {ev : Event} {h' : State K} {out : List Out}
    (hstep : step h (.publish name ev) = some (h', out)) : Sound limit overflow (log ++ out) h' := by
  rw [Sse.step, Sse.publish] at hstep
  split at hstep
  · cases hstep
    exact hs.idle
  rename_i h'' reached out' hpublish
  cases hstep
  split at hpublish
  · cases hpublish
  split at hpublish
  · obtain ⟨rfl, hrest⟩ := Prod.mk.inj (ok.inj hpublish)
    obtain ⟨-, rfl⟩ := Prod.mk.inj hrest
    exact hs.idle
  · dsimp only at hpublish
    split at hpublish
    · cases hpublish
    · rename_i ring hring
      obtain ⟨rfl, hrest⟩ := Prod.mk.inj (ok.inj hpublish)
      obtain ⟨-, rfl⟩ := Prod.mk.inj hrest
      exact hs.published rfl hring rfl rfl rfl

/-! ## Subscribing -/

theorem filled_fed : ∀ {events : List Event} {queue queue' : Channel.State K Event} {told answered : List (Channel.Event Event)},
    Channel.Fed told queue → queue.is_closed = false → filled events queue = some (queue', answered) →
      Channel.Fed (told ++ answered) queue' ∧ queue'.is_closed = false ∧ queue'.overflow = queue.overflow ∧
        Channel.accepted answered = events
  | [], queue, queue', told, answered, hfed, hopen, hfilled => by
      cases hfilled
      exact ⟨by rw [append_nil]; exact hfed, hopen, rfl, rfl⟩
  | ev :: events, queue, queue', told, answered, hfed, hopen, hfilled => by
      obtain ⟨ok, why, queue₁, hsend, hfed₁, hclosed, hoverflow, -⟩ := hfed.try_send hopen ev
      rw [filled, hsend] at hfilled
      dsimp only at hfilled
      by_cases hok : ok = true
      · subst hok
        rw [if_pos (show is_sent (some (.sent ev true why)) = true from rfl)] at hfilled
        obtain ⟨⟨queue₂, answered₂⟩, hrest, hsame⟩ := Option.map_eq_some_iff.mp hfilled
        cases hsame
        obtain ⟨hfed₂, hopen₂, hoverflow₂, haccepted⟩ := filled_fed hfed₁ hclosed hrest
        refine ⟨?_, hopen₂, hoverflow₂.trans hoverflow, ?_⟩
        · rwa [append_assoc] at hfed₂
        · rw [Channel.accepted] at haccepted ⊢
          rw [filterMap_append, haccepted]
          rfl
      · have hrefused : ok = false := by simpa using hok
        subst hrefused
        cases hfilled

theorem queue_log_map (i j : ℕ) (answered : List (Channel.Event Event)) :
    queue_log j (answered.map (Out.queue i)) = if i = j then answered else [] := by
  rw [queue_log, filterMap_map]
  by_cases hij : i = j
  · rw [if_pos hij]
    exact (filterMap_congr fun e _ => if_pos hij).trans filterMap_some
  · rw [if_neg hij]
    exact filterMap_eq_nil_iff.mpr fun e _ => if_neg hij

variable {names : List Bytes} {after : Option Bytes} {gap : Bool}

theorem Sound.subscribed (hs : Sound limit overflow log h) (honce : names.Nodup) {start : List Event}
    (hstarts : Starts limit (history log) names after gap start) {capacity : ℤ}
    (hcapacity : 1 ≤ capacity ∧ capacity < 2 ^ 63) {queue : Channel.State K Event}
    {answered : List (Channel.Event Event)}
    (hfilled : filled start (Channel.new K Event capacity.toNat h.overflow) = some (queue, answered)) :
    Sound limit overflow (log ++ .subscribed h.next names after gap :: answered.map (Out.queue h.next))
      (names.foldl (join_topic h.next) { h with
          subs := h.subs.insert h.next { queue, names, gap, attached := true }, next := h.next + 1, total := h.total + 1 }) := by
  obtain ⟨⟨topics, hsame⟩, hrings, hmembers⟩ := join_topics_spec h.next names { h with
      subs := h.subs.insert h.next { queue, names, gap, attached := true }, next := h.next + 1, total := h.total + 1 } honce
  have hfed : Channel.Fed [] (Channel.new K Event capacity.toNat h.overflow) := Channel.fed_new (by omega) hs.policy
  obtain ⟨hfed, hopen, hoverflow, haccepted⟩ := filled_fed hfed rfl hfilled
  have hhistory : history (.subscribed h.next names after gap :: answered.map (Out.queue h.next)) = [] := by
    refine filterMap_eq_nil_iff.mpr fun o ho => ?_
    rcases mem_cons.mp ho with rfl | ho
    · rfl
    · obtain ⟨e, -, rfl⟩ := mem_map.mp ho
      rfl
  have hall : history (log ++ .subscribed h.next names after gap :: answered.map (Out.queue h.next)) = history log := by
    rw [history_append, hhistory, append_nil]
  have hqueue : ∀ j, queue_log j (.subscribed h.next names after gap :: answered.map (Out.queue h.next)) =
      if h.next = j then answered else [] := fun j => queue_log_map h.next j answered
  have hend : ∀ j, .detached j ∉ answered.map (Out.queue h.next) := by
    intro j hmem
    obtain ⟨e, -, heq⟩ := mem_map.mp hmem
    cases heq
  have hlookup : ∀ j, (h.subs.insert h.next { queue, names, gap, attached := true }).lookup j =
      if j = h.next then some { queue, names, gap, attached := true } else h.subs.lookup j := by
    intro j
    by_cases hj : j = h.next
    · rw [if_pos hj, hj, AList.lookup_insert]
    · rw [if_neg hj, AList.lookup_insert_ne hj]
  have htidy := TidyBut.joins h.next names (h := { h with
      subs := h.subs.insert h.next { queue, names, gap, attached := true }, next := h.next + 1, total := h.total + 1 }) hs.tidy
  have hlisted : Listed (names.foldl (join_topic h.next) _) := hs.listed.join (show (Sub.mk queue names gap true).attached = true from rfl)
    (by rw [hsame]) (by rw [hsame]) (by rw [hsame]) hmembers
  have hrecalls : Recalls (names.foldl (join_topic h.next) _) (entries (history log)) := fun n => by
    rw [hrings, hsame]
    exact hs.recalls n
  refine ⟨by rw [hsame]; exact hs.kept, by rw [hsame]; exact hs.policed, hlisted, htidy, by rw [hall]; exact hrecalls, ?_, by rw [hsame]; exact hs.policy, by rw [hsame]; exact hs.size,
    fun j sub hj => ?_, fun j hj => ?_, ?_⟩
  · rw [hall, hsame]
    exact hs.numbered
  · rw [hsame] at hj
    dsimp only at hj
    rw [hlookup] at hj
    by_cases hnew : j = h.next
    · subst hnew
      rw [if_pos rfl] at hj
      cases hj
      have hlog : queue_log h.next (log ++ .subscribed h.next names after gap :: answered.map (Out.queue h.next)) = answered := by
        rw [queue_log_append, hs.quiet _ hs.listed.unused, hqueue, if_pos rfl, nil_append]
      have hnone : history (live h.next (answered.map (Out.queue h.next))) = [] := by
        refine filterMap_eq_nil_iff.mpr fun o ho => ?_
        obtain ⟨e, -, rfl⟩ := mem_map.mp ((List.takeWhile_prefix _).mem ho)
        rfl
      refine ⟨?_, hoverflow.trans hs.policed, hopen, log, after, start, _, rfl, hstarts, ?_, ⟨fun _ => hend _, fun _ => rfl⟩⟩
      · rwa [hlog]
      · rw [hlog, haccepted, hnone]
        exact (append_nil start).symm
    · rw [if_neg hnew] at hj
      refine (hs.serving j sub hj).step (.idle (hs.serving j sub hj).shut ?_ ?_ fun _ => ?_)
      · rw [hqueue, if_neg (Ne.symm hnew)]
      · rw [mem_cons, not_or]
        exact ⟨by simp, hend j⟩
      · rw [hhistory]
        rfl
  · rw [hsame] at hj
    dsimp only at hj
    rw [hlookup] at hj
    have hnew : j ≠ h.next := by
      rintro rfl
      rw [if_pos rfl] at hj
      cases hj
    rw [if_neg hnew] at hj
    rw [queue_log_append, hs.quiet j hj, hqueue, if_neg (Ne.symm hnew)]
    rfl
  · have hnone : (answered.map (Out.queue h.next)).filterMap begun_by = [] := by
      refine filterMap_eq_nil_iff.mpr fun o ho => ?_
      obtain ⟨e, -, rfl⟩ := mem_map.mp ho
      rfl
    rw [filterMap_append, hs.begun, filterMap_cons, hnone, hsame]
    exact range_succ.symm

theorem Sound.subscribe (hs : Sound limit overflow log h) (topics : List Bytes) (after : Option Bytes) :
    Sound limit overflow (log ++ (subscribe topics after h).2.2) (subscribe topics after h).1 := by
  rw [Sse.subscribe]
  dsimp only
  split_ifs
  · exact hs.idle
  · exact hs.idle
  · exact hs.idle
  · exact hs.idle
  · have honce : (topics.reverse.dedup.reverse).Nodup := nodup_reverse.mpr (nodup_dedup _)
    obtain ⟨start, gap, hstart, hstarts⟩ := start_of_spec hs.recalls hs.numbered honce (after.filter fun id => id ≠ [])
    rw [hs.kept] at hstarts
    rw [hstart]
    dsimp only
    split_ifs
    · exact hs.idle
    · split
      · exact hs.idle
      · rename_i hcapacity _ queue answered hfilled
        exact hs.subscribed honce hstarts ⟨by omega, by unfold signed; omega⟩ hfilled

theorem Starts.length_le {published : List (Bytes × Entry)} {start : List Event}
    (h : Starts limit published names after gap start) : start.length ≤ max 1 published.length := by
  cases h with
  | fresh => exact Nat.zero_le _
  | missed => exact le_max_left _ _
  | resumed X n e Y id hsplit =>
    refine le_max_of_le_right ?_
    have hfilter := length_filter_le (fun p : Bytes × Entry => names.contains p.1) Y
    rw [on, length_map, hsplit, length_append, length_cons]
    omega

theorem Sound.step (hs : Sound limit overflow log h) {a : Act K} (hstep : step h a = some (h', out)) :
    Sound limit overflow (log ++ out) h' := by
  cases a with
  | publish name ev => exact hs.publish hstep
  | subscribe topics after =>
    have hsame := Option.some.inj hstep
    cases hsame
    exact hs.subscribe topics after
  | close_sub i =>
    have hsame : Sse.close_sub i h = (h', out) := Option.some.inj hstep
    have hclosed := hs.close_sub i
    rwa [hsame] at hclosed
  | close =>
    have hsame : Sse.close h = (h', out) := Option.some.inj hstep
    have hclosed := hs.close
    rwa [hsame] at hclosed
  | receive i k timeout now now' => exact hs.queue_step i rfl hstep
  | resume i k now => exact hs.queue_step i rfl hstep
  | answer i k why => exact hs.queue_step i rfl hstep
  | kill i k => exact hs.queue_step i rfl hstep

theorem sound_new {replay queue_size : ℕ} {max_per_topic max_total : Option ℕ} {max_event_bytes : ℕ}
    (hnew : new_hub K replay queue_size overflow max_per_topic max_total max_event_bytes = .ok h) :
    Sound replay overflow [] h := by
  rw [new_hub] at hnew
  split_ifs at hnew with hsize htopic htotal hbytes hblock
  cases hnew
  refine ⟨rfl, rfl, ⟨fun _ => nodup_nil, fun n i => ?_, fun i => ?_, rfl⟩, fun n topic _ hn => ?_, fun n => ?_, rfl, hblock,
    by dsimp only; omega, fun i sub hi => ?_, fun _ _ => rfl, rfl⟩
  · refine ⟨nofun, ?_⟩
    rintro ⟨sub, hsub, -⟩
    cases hsub
  · simp
  · cases hn
  · exact remembers_new
  · cases hi

theorem runs_sound {log' : List Out} (hs : Sound limit overflow log h) (hruns : Runs h log' h') :
    Sound limit overflow (log ++ log') h' := by
  induction hruns with
  | nil => exact hs.idle
  | snoc hrun hstep ih =>
    rw [← append_assoc]
    exact ih.step hstep

/-! ## What subscribers get -/

/-- The hub and what came out after several acts; `none` where one cannot happen. -/
def run : State K → List (Act K) → Option (State K × List Out)
  | h, [] => some (h, [])
  | h, a :: acts =>
    (step h a).bind fun (h', out) => (run h' acts).map fun (h'', log) => (h'', out ++ log)

theorem Runs.cons {h'' : State K} {a : Act K} (hstep : Sse.step h a = some (h', out)) (hruns : Runs h' log h'') :
    Runs h (out ++ log) h'' := by
  induction hruns with
  | nil =>
    rw [append_nil]
    exact .snoc (.nil h) hstep
  | snoc hrun hstep' ih =>
    rw [← append_assoc]
    exact .snoc ih hstep'

theorem Runs.of_run : ∀ {acts : List (Act K)} {h h' : State K} {log : List Out}, run h acts = some (h', log) → Runs h log h'
  | [], h, h', log, hrun => by
      cases hrun
      exact .nil h
  | a :: acts, h, h', log, hrun => by
      obtain ⟨⟨h₁, out⟩, hstep, hrest⟩ := Option.bind_eq_some_iff.mp hrun
      obtain ⟨⟨h₂, rest⟩, hlater, hsame⟩ := Option.map_eq_some_iff.mp hrest
      cases hsame
      exact .cons hstep (Runs.of_run hlater)

def plain (id : Option Bytes) (data : Bytes) : Event := { id, event := none, data := some data, retry := none, comment := none }

end Cosmic.Sse
