/-
A hub of server-sent events: what is published to a topic goes to the queue of each of its subscriptions, and is kept in
the topic's ring for a client that comes back.

A subscription is what `subscribe` answers, known by a number; its queue is a channel, on which the tasks that read it
take their own steps. What a step does is told by what comes out of it: the events published, the subscriptions begun
and ended, and what each queue's calls answered.
-/
import Cosmic.Base.Backlog
import Cosmic.Task.Channel
import Mathlib.Data.List.Sort

set_option autoImplicit false

namespace Cosmic.Sse

open Cosmic.Base List

structure Event where
  id : Option Bytes
  event : Option Bytes
  data : Option Bytes
  retry : Option ℤ
  comment : Option Bytes
deriving DecidableEq, Repr

/-- One published event, kept for replay. -/
structure Entry where
  seq : ℕ
  event : Event
deriving DecidableEq, Repr

/-- A topic's subscriptions and replay ring. -/
structure Topic where
  subs : List ℕ
  ring : Backlog Entry

def Topic.new : Topic := { subs := [], ring := .new }

/-- A subscription: its queue, the topics it is to, and whether the hub still delivers to it. -/
structure Sub (K : Type) where
  queue : Channel.State K Event
  names : List Bytes
  gap : Bool
  attached : Bool

/-- A hub, and the subscriptions it has answered, by number. -/
structure State (K : Type) where
  replay : ℕ
  queue_size : ℕ
  overflow : Channel.Overflow
  max_per_topic : Option ℕ
  max_total : Option ℕ
  max_event_bytes : ℕ
  topics : Table Bytes Topic
  total : ℤ
  seq : ℕ
  shut : Bool
  subs : Table ℕ (Sub K)
  next : ℕ

inductive Out where
  | published (name : Bytes) (entry : Entry)
  | subscribed (i : ℕ) (names : List Bytes) (after : Option Bytes) (gap : Bool)
  | detached (i : ℕ)
  | queue (i : ℕ) (e : Channel.Event Event)
deriving DecidableEq, Repr

/-! ## What may be published -/

/-- Why a field may not hold `value`. -/
def field_error (name value : Bytes) : Option Bytes :=
  if value.any fun b => b == 13 || b == 10 || b == 0 then
    some (lit "sse: " ++ name ++ lit " must not hold a line ending or NUL")
  else none

/-- What `format_event` raises for an event, where it does. -/
def format_error (ev : Event) : Option Bytes :=
  (ev.event.bind fun event => if event = [] then none else field_error (lit "event") event).or <|
    (ev.id.bind fun id => field_error (lit "id") id).or <|
      ev.retry.bind fun retry => if retry < 0 then some (lit "sse: retry must be a positive integer of milliseconds") else none

/-- What `publish` raises for an event, where it does. -/
def publish_error (max_event_bytes : ℕ) (ev : Event) : Option Bytes :=
  (format_error ev).or <| ev.data.bind fun data =>
      if max_event_bytes < data.length then
        some (lit "sse: the event's data (" ++ tostring data.length ++ lit ") is over the hub's max_event_bytes (" ++
          tostring max_event_bytes ++ lit ")")
      else none

/-- The event as it is kept: with the hub's next id where it has none. -/
def kept (seq : ℕ) (ev : Event) : Event :=
  { ev with
    id := match ev.id with
      | some id => if id = [] then some (tostring seq) else some id
      | none => some (tostring seq) }

section

variable {K : Type}

/-! ## Topics -/

/-- The topic `name`, made where it is missing. -/
def topic_of (name : Bytes) (h : State K) : Topic := (h.topics.lookup name).getD .new

def set_topic (name : Bytes) (topic : Topic) (h : State K) : State K := { h with topics := h.topics.insert name topic }

/-- Forgets a topic that has no subscriber and holds no event. -/
def release (name : Bytes) (h : State K) : State K :=
  match h.topics.lookup name with
  | some topic =>
    if topic.subs = [] ∧ topic.ring.last < topic.ring.first then { h with topics := h.topics.erase name } else h
  | none => h

def leave_topic (i : ℕ) (h : State K) (name : Bytes) : State K :=
  release name (match h.topics.lookup name with
      | some topic => set_topic name { topic with subs := topic.subs.filter fun j => j ≠ i } h
      | none => h)

/-! ## Subscriptions -/

/-- Ends a subscription, where the hub still delivers to it. -/
def detach (i : ℕ) (h : State K) : State K × List Out :=
  match h.subs.lookup i with
  | none => (h, [])
  | some sub =>
    if sub.attached then
      let sub := { sub with attached := false, queue := Channel.close sub.queue }
      (sub.names.foldl (leave_topic i) { h with subs := h.subs.insert i sub, total := h.total - 1 }, [.detached i])
    else (h, [])

/-- `close` of a subscription. -/
def close_sub (i : ℕ) (h : State K) : State K × List Out :=
  match h.subs.lookup i with
  | none => (h, [])
  | some sub => detach i { h with subs := h.subs.insert i { sub with queue := Channel.close sub.queue } }

/-- Sends an event to a subscription's queue: the hub then, and what the queue answered. -/
def try_send (ev : Event) (i : ℕ) (h : State K) : State K × Option (Channel.Event Event) :=
  match h.subs.lookup i with
  | none => (h, none)
  | some sub =>
    let (queue, e) := Channel.try_send ev sub.queue
    ({ h with subs := h.subs.insert i { sub with queue } }, e)

/-- Whether a call answered true. -/
def is_sent : Option (Channel.Event Event) → Bool
  | some (.sent _ true _) => true
  | _ => false

/-- Sends an event to each of `subs`: what their queues answered, by subscription, in order. -/
def deliver (ev : Event) : List ℕ → State K → State K × List (ℕ × Option (Channel.Event Event))
  | [], h => (h, [])
  | i :: subs, h =>
    let (h, e) := try_send ev i h
    let (h, sent) := deliver ev subs h
    (h, (i, e) :: sent)

/-- Ends each of `subs`. -/
def detach_all : List ℕ → State K → State K × List Out
  | [], h => (h, [])
  | i :: subs, h =>
    let (h, out) := detach i h
    let (h, rest) := detach_all subs h
    (h, out ++ rest)

def answers (sent : List (ℕ × Option (Channel.Event Event))) : List Out :=
  sent.flatMap fun (i, e) => (e.map (Out.queue i)).toList

/-- `publish`: the hub then, how many subscriptions it reached, and what came out; or what it raises. -/
def publish (name : Bytes) (ev : Event) (h : State K) : Except Bytes (State K × ℕ × List Out) :=
  match publish_error h.max_event_bytes ev with
  | some why => .error why
  | none =>
    if h.shut then .ok (h, 0, [])
    else
      let seq := h.seq + 1
      let entry := { seq, event := kept seq ev }
      let topic := topic_of name h
      match if 0 < h.replay then topic.ring.enter h.replay Entry.seq entry else some topic.ring with
      | none => .error (lit "sse: a topic's ring holds an event at each position from first to last")
      | some ring =>
        let (h, sent) := deliver entry.event topic.subs (set_topic name { topic with ring } { h with seq })
        let (h, out) := detach_all ((sent.filter fun (_, e) => !is_sent e).map Prod.fst) h
        -- those cut off by this event, then the event, then what the queues answered
        .ok (release name h, sent.countP fun (_, e) => is_sent e, out ++ .published name entry :: answers sent)

/-! ## Replay -/

/-- The rings of `names`, in their order; `none` where one lacks an entry. -/
def rings (names : List Bytes) (h : State K) : Option (List (List Entry × ℕ)) :=
  (names.filterMap h.topics.lookup).mapM fun topic => topic.ring.held.map fun held => (held, topic.ring.evicted)

def newest (found : List Entry) : Option ℕ := (found.map Entry.seq).max?

/-- The events of the rings after the one with id `after`: `none` where no ring holds it, or one has lost events since. -/
def replayed (held : List (List Entry × ℕ)) (after : Bytes) : Option (List Event) :=
  match newest (held.filterMap fun (entries, _) => entries.reverse.find? fun entry => entry.event.id = some after) with
  | none => none
  | some found =>
    if held.any fun (_, evicted) => found < evicted then none
    else
      let later := held.flatMap fun (entries, _) => entries.filter fun entry => found < entry.seq
      some ((later.insertionSort fun a b => a.seq ≤ b.seq).map Entry.event)

/-- The newer of two entries, the first of them where neither is. -/
def newer (best : Option Entry) (entry : Entry) : Option Entry :=
  match best with
  | some best => if best.seq < entry.seq then some entry else some best
  | none => some entry

/-- The id of the newest event the rings hold. -/
def head_id (held : List (List Entry × ℕ)) : Option Bytes :=
  ((held.filterMap fun (entries, _) => entries.getLast?).foldl newer none).bind fun best => best.event.id

/-- What a client that missed events is told first. -/
def reset (id : Option Bytes) : Event := { id, event := some (lit "reset"), data := some [], retry := none, comment := none }

/-- What a subscription's queue holds from the start, and whether that leaves a gap; `none` where a ring lacks an entry. -/
def start_of (names : List Bytes) (after : Option Bytes) (h : State K) : Option (List Event × Bool) :=
  match after with
  | none => some ([], false)
  | some after =>
    (rings names h).map fun held =>
      match replayed held after with
      | none => ([reset (head_id held)], true)
      | some later => (later, false)

def subscribers (name : Bytes) (h : State K) : ℕ := ((h.topics.lookup name).map fun topic => topic.subs.length).getD 0

def reached (limit : Option ℕ) (n : ℤ) : Bool := limit.elim false fun limit => limit ≤ n

/-- A queue with `events` sent to it one by one, and what it answered; `none` where one is not queued. -/
def filled : List Event → Channel.State K Event → Option (Channel.State K Event × List (Channel.Event Event))
  | [], queue => some (queue, [])
  | ev :: events, queue =>
    let (queue, e) := Channel.try_send ev queue
    if is_sent e then (filled events queue).map fun (queue, answered) => (queue, e.toList ++ answered) else none

/-- What `subscribe` answers, or raises. -/
inductive Subscribed where
  | answer (i : ℕ)
  | refused (why : Bytes)
  | raised (why : Bytes)
deriving DecidableEq, Repr

def join_topic (i : ℕ) (h : State K) (name : Bytes) : State K :=
  let topic := topic_of name h
  set_topic name { topic with subs := topic.subs ++ [i] } h

/-- `subscribe` to `topics`, after the event with id `after`. -/
def subscribe (topics : List Bytes) (after : Option Bytes) (h : State K) : State K × Subscribed × List Out :=
  if topics = [] then (h, .raised (lit "sse: subscribe takes a list of topic names"), [])
  else
    let names := topics.reverse.dedup.reverse
    let after := after.filter fun id => id ≠ []
    if h.shut then (h, .refused (lit "closed"), [])
    else if reached h.max_total h.total then (h, .refused (lit "full"), [])
    else if names.any fun name => reached h.max_per_topic (subscribers name h) then (h, .refused (lit "full"), [])
    else
      match start_of names after h with
      | none => (h, .raised (lit "sse: a topic's ring holds an event at each position from first to last"), [])
      | some (replay, gap) =>
        let capacity := signed (h.queue_size + replay.length)
        if capacity < 1 then (h, .raised (lit "channel: capacity must be an integer of at least 1"), [])
        else
          match filled replay (Channel.new K Event capacity.toNat h.overflow) with
          | none => (h, .raised (lit "assertion failed!"), [])
          | some (queue, answered) =>
            let i := h.next
            let sub : Sub K := { queue, names, gap, attached := true }
            (names.foldl (join_topic i) { h with subs := h.subs.insert i sub, next := i + 1, total := h.total + 1 },
              .answer i, .subscribed i names after gap :: answered.map (Out.queue i))

def close_all : List ℕ → State K → State K × List Out
  | [], h => (h, [])
  | i :: subs, h =>
    let (h, out) := close_sub i h
    let (h, rest) := close_all subs h
    (h, out ++ rest)

/-- `close` of the hub: every subscription of every topic. -/
def close (h : State K) : State K × List Out :=
  close_all (h.topics.entries.flatMap fun entry => entry.2.subs).dedup { h with shut := true }

/-! ## Steps of a run -/

/-- What may happen next: a call of the hub or of a subscription, or a step of the tasks that read one's queue. -/
inductive Act (K : Type) where
  | publish (name : Bytes) (ev : Event)
  | subscribe (topics : List Bytes) (after : Option Bytes)
  | close_sub (i : ℕ)
  | close
  | receive (i : ℕ) (k : K) (timeout : Option ℤ) (now now' : ℤ)
  | resume (i : ℕ) (k : K) (now : ℤ)
  | answer (i : ℕ) (k : K) (why : Bytes)
  | kill (i : ℕ) (k : K)

variable [DecidableEq K]

def queue_step (i : ℕ) (a : Channel.Act K Event) (h : State K) : Option (State K × List Out) :=
  (h.subs.lookup i).bind fun sub =>
    (Channel.step sub.queue a).map fun (queue, e) =>
      ({ h with subs := h.subs.insert i { sub with queue } }, (e.map (Out.queue i)).toList)

/-- The hub after an act, and what came out; `none` where it cannot happen. -/
def step (h : State K) : Act K → Option (State K × List Out)
  | .publish name ev =>
    match publish name ev h with
    | .error _ => some (h, [])
    | .ok (h, _, out) => some (h, out)
  | .subscribe topics after =>
    let (h, _, out) := subscribe topics after h
    some (h, out)
  | .close_sub i => some (close_sub i h)
  | .close => some (close h)
  | .receive i k timeout now now' => queue_step i (.receive k timeout now now') h
  | .resume i k now => queue_step i (.resume k now) h
  | .answer i k why => queue_step i (.answer k why) h
  | .kill i k => queue_step i (.kill k) h

/-- A hub with no subscribers and no events kept; what `new_hub` raises for an option out of range. -/
def new_hub (K : Type) (replay queue_size : ℕ) (overflow : Channel.Overflow) (max_per_topic max_total : Option ℕ)
    (max_event_bytes : ℕ) : Except Bytes (State K) :=
  if queue_size < 1 then .error (lit "sse: queue must be an integer of at least 1")
  else if max_per_topic.elim false (· < 1) then .error (lit "sse: max_per_topic must be an integer of at least 1")
  else if max_total.elim false (· < 1) then .error (lit "sse: max_total must be an integer of at least 1")
  else if max_event_bytes < 1 then .error (lit "sse: max_event_bytes must be an integer of at least 1")
  else if overflow = .block then .error (lit "sse: overflow must be \"close\", \"drop_oldest\" or \"drop_newest\"")
  else
    .ok
      { replay, queue_size, overflow, max_per_topic, max_total, max_event_bytes
        topics := ∅, total := 0, seq := 0, shut := false, subs := ∅, next := 0 }

/-- The runs from a hub: what came out of them, in order, and where they lead. -/
inductive Runs : State K → List Out → State K → Prop
  | nil (h : State K) : Runs h [] h
  | snoc {h h' h'' : State K} {log out : List Out} {a : Act K} (hrun : Runs h log h') (hstep : step h' a = some (h'', out)) :
      Runs h (log ++ out) h''

end

/-!
What a hub's topics hold: their subscriptions, and the last of what was published to them.

A topic that is forgotten had neither, so a hub may be read as if every topic were there.
-/

variable {K : Type}

/-! ## Topics read as if all were there -/

def members (n : Bytes) (h : State K) : List ℕ := (topic_of n h).subs

def ring_of (n : Bytes) (h : State K) : Backlog Entry := (topic_of n h).ring

/-- A hub with its topics changed, and no ring but one that held nothing. -/
structure Retopic (h h' : State K) : Prop where
  same : ∃ topics, h' = { h with topics }
  rings : ∀ n, ring_of n h' = ring_of n h ∨ ring_of n h' = .new ∧ (ring_of n h).last < (ring_of n h).first

theorem Retopic.refl (h : State K) : Retopic h h := ⟨⟨h.topics, rfl⟩, fun _ => .inl rfl⟩

theorem Retopic.trans {h h' h'' : State K} (hab : Retopic h h') (hbc : Retopic h' h'') : Retopic h h'' := by
  obtain ⟨⟨topics, rfl⟩, hrings⟩ := hab
  obtain ⟨⟨topics', rfl⟩, hrings'⟩ := hbc
  refine ⟨⟨topics', rfl⟩, fun n => ?_⟩
  rcases hrings n with hab | ⟨hab, hempty⟩
  · rcases hrings' n with hbc | ⟨hbc, hempty⟩
    · exact .inl (hbc.trans hab)
    · exact .inr ⟨hbc, hab ▸ hempty⟩
  · rcases hrings' n with hbc | ⟨hbc, -⟩
    · exact .inr ⟨hbc.trans hab, hempty⟩
    · exact .inr ⟨hbc, hempty⟩

theorem topic_of_set (name n : Bytes) (topic : Topic) (h : State K) :
    topic_of n (set_topic name topic h) = if n = name then topic else topic_of n h := by
  rw [topic_of, set_topic]
  by_cases hn : n = name
  · rw [if_pos hn, hn, AList.lookup_insert]
    rfl
  · rw [if_neg hn, AList.lookup_insert_ne hn]
    rfl

theorem release_spec (name : Bytes) (h : State K) : Retopic h (release name h) ∧
    ∀ n, members n (release name h) = members n h := by
  rw [release]
  rcases htopic : h.topics.lookup name with _ | topic
  · exact ⟨.refl h, fun _ => rfl⟩
  dsimp only
  by_cases hempty : topic.subs = [] ∧ topic.ring.last < topic.ring.first
  · rw [if_pos hempty]
    have hsame : topic_of name h = topic := by rw [topic_of, htopic]; rfl
    have herased : ∀ n, topic_of n { h with topics := h.topics.erase name } = if n = name then .new else topic_of n h := by
      intro n
      rw [topic_of]
      by_cases hn : n = name
      · rw [if_pos hn, hn, AList.lookup_erase]
        rfl
      · rw [if_neg hn, AList.lookup_erase_ne hn]
        rfl
    refine ⟨⟨⟨_, rfl⟩, fun n => ?_⟩, fun n => ?_⟩
    · rw [ring_of, ring_of, herased]
      by_cases hn : n = name
      · rw [if_pos hn, hn, hsame]
        exact .inr ⟨rfl, hempty.2⟩
      · rw [if_neg hn]
        exact .inl rfl
    · rw [members, members, herased]
      by_cases hn : n = name
      · rw [if_pos hn, hn, hsame, hempty.1]
        rfl
      · rw [if_neg hn]
  · rw [if_neg hempty]
    exact ⟨.refl h, fun _ => rfl⟩

theorem leave_topic_spec (i : ℕ) (h : State K) (name : Bytes) : Retopic h (leave_topic i h name) ∧
    ∀ n, members n (leave_topic i h name) = if n = name then (members n h).filter fun j => j ≠ i else members n h := by
  rw [leave_topic]
  rcases htopic : h.topics.lookup name with _ | topic
  · obtain ⟨hretopic, hmembers⟩ := release_spec name h
    refine ⟨hretopic, fun n => ?_⟩
    rw [hmembers]
    by_cases hn : n = name
    · rw [if_pos hn, hn, members, topic_of, htopic]
      rfl
    · rw [if_neg hn]
  · have hsame : topic_of name h = topic := by rw [topic_of, htopic]; rfl
    have hset : Retopic h (set_topic name { topic with subs := topic.subs.filter fun j => j ≠ i } h) := by
      refine ⟨⟨_, rfl⟩, fun n => .inl ?_⟩
      rw [ring_of, topic_of_set]
      by_cases hn : n = name
      · rw [if_pos hn, hn, ring_of, hsame]
      · rw [if_neg hn, ring_of]
    obtain ⟨hretopic, hmembers⟩ := release_spec name (set_topic name { topic with subs := topic.subs.filter fun j => j ≠ i } h)
    refine ⟨hset.trans hretopic, fun n => ?_⟩
    rw [hmembers, members, topic_of_set]
    by_cases hn : n = name
    · rw [if_pos hn, if_pos hn, hn, members, hsame]
    · rw [if_neg hn, if_neg hn, members]

theorem leave_topics_spec (i : ℕ) (names : List Bytes) : ∀ (h : State K), Retopic h (names.foldl (leave_topic i) h) ∧
    ∀ n, members n (names.foldl (leave_topic i) h) = if n ∈ names then (members n h).filter fun j => j ≠ i else members n h := by
  induction names with
  | nil => exact fun h => ⟨.refl h, fun n => by rw [if_neg not_mem_nil]; rfl⟩
  | cons name names ih =>
    intro h
    obtain ⟨hretopic, hmembers⟩ := leave_topic_spec i h name
    obtain ⟨hretopic', hmembers'⟩ := ih (leave_topic i h name)
    refine ⟨hretopic.trans hretopic', fun n => ?_⟩
    rw [foldl_cons, hmembers', hmembers]
    by_cases hn : n = name
    · rw [if_pos hn, if_pos (mem_cons.mpr (.inl hn))]
      by_cases hin : n ∈ names
      · rw [if_pos hin, filter_filter]
        simp
      · rw [if_neg hin]
    · rw [if_neg hn]
      by_cases hin : n ∈ names
      · rw [if_pos hin, if_pos (mem_cons_of_mem _ hin)]
      · rw [if_neg hin, if_neg fun hmem => (mem_cons.mp hmem).elim hn hin]

theorem join_topics_spec (i : ℕ) (names : List Bytes) : ∀ (h : State K), names.Nodup →
    (∃ topics, names.foldl (join_topic i) h = { h with topics }) ∧
      (∀ n, ring_of n (names.foldl (join_topic i) h) = ring_of n h) ∧
        ∀ n, members n (names.foldl (join_topic i) h) = if n ∈ names then members n h ++ [i] else members n h := by
  induction names with
  | nil => exact fun h _ => ⟨⟨h.topics, rfl⟩, fun _ => rfl, fun n => by rw [if_neg not_mem_nil]; rfl⟩
  | cons name names ih =>
    intro h honce
    obtain ⟨hout, honce⟩ := nodup_cons.mp honce
    obtain ⟨⟨topics, hsame⟩, hrings, hmembers⟩ := ih (join_topic i h name) honce
    have hjoin : ∀ n, topic_of n (join_topic i h name) =
        if n = name then { topic_of name h with subs := (topic_of name h).subs ++ [i] } else topic_of n h := fun n =>
      topic_of_set name n _ h
    refine ⟨⟨topics, by rw [foldl_cons, hsame]; rfl⟩, fun n => ?_, fun n => ?_⟩
    · rw [foldl_cons, hrings, ring_of, hjoin, ring_of]
      by_cases hn : n = name
      · rw [if_pos hn, hn]
      · rw [if_neg hn]
    · rw [foldl_cons, hmembers, members, hjoin, members]
      by_cases hn : n = name
      · rw [if_pos hn, if_pos (mem_cons.mpr (.inl hn)), if_neg (by rw [hn]; exact hout), hn]
      · rw [if_neg hn]
        by_cases hin : n ∈ names
        · rw [if_pos hin, if_pos (mem_cons_of_mem _ hin)]
        · rw [if_neg hin, if_neg fun hmem => (mem_cons.mp hmem).elim hn hin]

/-! ## Topics with nothing are not kept -/

/-- Every topic kept, those of `ex` aside, has a subscription or an event. -/
def TidyBut (ex : Bytes → Prop) (h : State K) : Prop :=
  ∀ n topic, ¬ex n → h.topics.lookup n = some topic → topic.subs ≠ [] ∨ topic.ring.first ≤ topic.ring.last

variable {ex : Bytes → Prop} {h : State K}

theorem TidyBut.set (ht : TidyBut ex h) (n : Bytes) (topic : Topic) : TidyBut (fun m => m = n ∨ ex m) (set_topic n topic h) := by
  intro m t hm hlookup
  rw [set_topic, AList.lookup_insert_ne fun hmn => hm (.inl hmn)] at hlookup
  exact ht m t (fun hex => hm (.inr hex)) hlookup

theorem TidyBut.set_kept (ht : TidyBut ex h) {n : Bytes} {topic : Topic} (hkept : topic.subs ≠ [] ∨ topic.ring.first ≤ topic.ring.last) :
    TidyBut ex (set_topic n topic h) := by
  intro m t hm hlookup
  rw [set_topic] at hlookup
  by_cases hmn : m = n
  · subst hmn
    rw [AList.lookup_insert] at hlookup
    rwa [← Option.some.inj hlookup]
  · rw [AList.lookup_insert_ne hmn] at hlookup
    exact ht m t hm hlookup

theorem TidyBut.release {n : Bytes} (ht : TidyBut (fun m => m = n ∨ ex m) h) : TidyBut ex (release n h) := by
  rw [Sse.release]
  intro m t hm hlookup
  rcases htopic : h.topics.lookup n with _ | topic
  · rw [htopic] at hlookup
    refine ht m t (fun hor => hor.elim (fun hmn => ?_) hm) hlookup
    rw [hmn, htopic] at hlookup
    cases hlookup
  rw [htopic] at hlookup
  dsimp only at hlookup
  by_cases hempty : topic.subs = [] ∧ topic.ring.last < topic.ring.first
  · rw [if_pos hempty] at hlookup
    obtain ⟨hmn, hlookup⟩ := Table.lookup_erase_some hlookup
    exact ht m t (fun hor => hor.elim hmn hm) hlookup
  · rw [if_neg hempty] at hlookup
    by_cases hmn : m = n
    · rw [hmn, htopic] at hlookup
      cases hlookup
      by_contra hnot
      rw [not_or, not_not, not_le] at hnot
      exact hempty hnot
    · exact ht m t (fun hor => hor.elim hmn hm) hlookup

theorem TidyBut.leave (ht : TidyBut ex h) (i : ℕ) (name : Bytes) : TidyBut ex (leave_topic i h name) := by
  rw [leave_topic]
  cases h.topics.lookup name with
  | none => exact TidyBut.release fun m t hm => ht m t fun hex => hm (.inr hex)
  | some topic => exact (ht.set name _).release

theorem TidyBut.leaves (i : ℕ) (names : List Bytes) : ∀ {h : State K}, TidyBut ex h → TidyBut ex (names.foldl (leave_topic i) h) := by
  induction names with
  | nil => exact id
  | cons name names ih => exact fun ht => ih (ht.leave i name)

theorem TidyBut.joins (i : ℕ) (names : List Bytes) : ∀ {h : State K}, TidyBut ex h → TidyBut ex (names.foldl (join_topic i) h) := by
  induction names with
  | nil => exact id
  | cons name names ih => exact fun ht => ih (ht.set_kept (.inl (by simp)))

/-! ## What the rings hold -/

/-- A ring holds the last of `entries`: up to `limit` of them, and no fewer than that where some are gone. -/
def Remembers (limit : ℕ) (ring : Backlog Entry) (entries : List Entry) : Prop :=
  ∃ gone held, ring.Keeps Entry.seq gone held ∧ (0 < limit → gone ++ held = entries ∧ held.length ≤ limit ∧ (gone ≠ [] → held.length = limit)) ∧
    (limit = 0 → gone = [] ∧ held = [])

/-- What a hub has kept of all that was published, by topic. -/
def Recalls (h : State K) (published : Bytes → List Entry) : Prop := ∀ n, Remembers h.replay (ring_of n h) (published n)

theorem remembers_new {limit : ℕ} : Remembers limit (.new) [] :=
  ⟨[], [], Backlog.keeps_new, fun _ => ⟨rfl, Nat.zero_le _, fun h => absurd rfl h⟩, fun _ => ⟨rfl, rfl⟩⟩

theorem Remembers.empty {limit : ℕ} {ring : Backlog Entry} {entries : List Entry} (h : Remembers limit ring entries)
    (hempty : ring.last < ring.first) : Remembers limit .new entries := by
  obtain ⟨gone, held, hkeeps, hsome, hnone⟩ := h
  have hheld : held = [] := by
    rw [hkeeps.last, hkeeps.first] at hempty
    exact length_eq_zero_iff.mp (by omega)
  refine ⟨[], [], Backlog.keeps_new, fun hlimit => ?_, fun _ => ⟨rfl, rfl⟩⟩
  obtain ⟨hall, -, hfull⟩ := hsome hlimit
  have hgone : gone = [] := by
    by_contra hne
    have := hfull hne
    rw [hheld, length_nil] at this
    omega
  rw [hheld, hgone] at hall
  exact ⟨hall, Nat.zero_le _, fun h => absurd rfl h⟩

theorem Recalls.retopic {h' : State K} {published : Bytes → List Entry} (hr : Recalls h published) (hretopic : Retopic h h') :
    Recalls h' published := by
  obtain ⟨⟨topics, rfl⟩, hrings⟩ := hretopic
  intro n
  rcases hrings n with hsame | ⟨hnew, hempty⟩
  · rw [hsame]
    exact hr n
  · rw [hnew]
    exact (hr n).empty hempty

end Cosmic.Sse
