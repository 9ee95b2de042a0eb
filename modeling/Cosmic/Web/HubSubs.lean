/-
A hub's subscriptions: which topics list them, how many there are, and what each one's queue was sent.
-/
import Cosmic.Web.Hub
import Cosmic.Task.ChannelRun

set_option autoImplicit false

namespace Cosmic.Sse

open Cosmic.Base List Option

variable {K : Type}

/-! ## Who is listed -/

/-- Whether the hub still delivers to a subscription. -/
def attached (h : State K) (i : ℕ) : Bool := (h.subs.lookup i).elim false Sub.attached

variable {h h' : State K} {i : ℕ}

theorem attached_congr (hi : h.subs.lookup i = h'.subs.lookup i) : attached h i = attached h' i := by
  rw [attached, hi, attached]

/-- A topic lists the subscriptions to it that are attached, and the hub counts all of them. -/
structure Listed (h : State K) : Prop where
  once : ∀ n, (members n h).Nodup
  mem : ∀ n i, i ∈ members n h ↔ ∃ sub, h.subs.lookup i = some sub ∧ sub.attached = true ∧ n ∈ sub.names
  fresh : ∀ i, (h.subs.lookup i).isSome = true ↔ i < h.next
  total : h.total = (List.range h.next).countP (attached h)

theorem Listed.member (hl : Listed h) {n : Bytes} (hi : i ∈ members n h) :
    ∃ sub, h.subs.lookup i = some sub ∧ sub.attached = true ∧ n ∈ sub.names := (hl.mem n i).mp hi

theorem Listed.congr (hl : Listed h) (hmembers : ∀ n, members n h' = members n h) (hsubs : h'.subs = h.subs)
    (hnext : h'.next = h.next) (htotal : h'.total = h.total) : Listed h' := by
  have hattached : attached h' = attached h := funext fun i => attached_congr (by rw [hsubs])
  refine ⟨fun n => ?_, fun n i => ?_, fun i => ?_, ?_⟩
  · rw [hmembers]
    exact hl.once n
  · rw [hmembers, hsubs]
    exact hl.mem n i
  · rw [hsubs, hnext]
    exact hl.fresh i
  · rw [hattached, hnext, htotal]
    exact hl.total

theorem countP_differ {α : Type} {p q : α → Bool} {xs : List α} (honce : xs.Nodup) {x : α} (hx : x ∈ xs) (hp : p x = true)
    (hq : q x = false) (hsame : ∀ y ∈ xs, y ≠ x → p y = q y) : xs.countP p = xs.countP q + 1 := by
  induction xs with
  | nil => exact absurd hx not_mem_nil
  | cons y xs ih =>
    obtain ⟨hout, honce⟩ := nodup_cons.mp honce
    rw [countP_cons, countP_cons]
    rcases mem_cons.mp hx with rfl | hin
    · have hrest : xs.countP p = xs.countP q := by
        refine countP_congr fun z hz => ?_
        rw [hsame z (mem_cons_of_mem _ hz) fun heq => hout (heq ▸ hz)]
      rw [hp, hq, hrest]
      rfl
    · rw [hsame y mem_cons_self fun heq => hout (heq ▸ hin), ih honce hin fun z hz => hsame z (mem_cons_of_mem _ hz)]
      omega

/-! ## What the operations do to each -/

/-- An operation on subscriptions: what it makes of each, and all that it leaves in order. -/
structure Op (f : ℕ → Sub K → Sub K) (h h' : State K) : Prop where
  same : ∃ topics total subs, h' = { h with topics, total, subs }
  subs : ∀ j, h'.subs.lookup j = (h.subs.lookup j).map (f j)
  listed : Listed h'
  recalls : ∀ published, Recalls h published → Recalls h' published
  tidy : ∀ ex, TidyBut ex h → TidyBut ex h'

variable {f : ℕ → Sub K → Sub K}

theorem Op.refl (hl : Listed h) (hf : ∀ j sub, h.subs.lookup j = some sub → f j sub = sub) : Op f h h := by
  refine ⟨⟨h.topics, h.total, h.subs, rfl⟩, fun j => ?_, hl, fun _ => id, fun _ => id⟩
  cases hj : h.subs.lookup j with
  | none => rfl
  | some sub => rw [map_some, hf j sub hj]

theorem Op.trans {g e : ℕ → Sub K → Sub K} {h'' : State K} (hab : Op f h h') (hbc : Op g h' h'')
    (he : ∀ j sub, h.subs.lookup j = some sub → e j sub = g j (f j sub)) : Op e h h'' := by
  obtain ⟨⟨topics, total, subs, hsame⟩, hsubs, -, hrecalls, htidy⟩ := hab
  obtain ⟨⟨topics', total', subs', hsame'⟩, hsubs', hlisted, hrecalls', htidy'⟩ := hbc
  refine ⟨⟨topics', total', subs', ?_⟩, fun j => ?_, hlisted, fun p hp => hrecalls' p (hrecalls p hp),
    fun ex ht => htidy' ex (htidy ex ht)⟩
  · rw [hsame', hsame]
  · rw [hsubs', hsubs]
    cases hj : h.subs.lookup j with
    | none => rfl
    | some sub => rw [map_some, map_some, map_some, he j sub hj]

variable {sub : Sub K}

theorem lookup_insert_map {sub' : Sub K} (hi : h.subs.lookup i = some sub) (hf : f i sub = sub')
    (hother : ∀ j sub, j ≠ i → f j sub = sub) (j : ℕ) :
    (h.subs.insert i sub').lookup j = (h.subs.lookup j).map (f j) := by
  by_cases hj : j = i
  · rw [hj, AList.lookup_insert, hi, map_some, hf]
  · rw [AList.lookup_insert_ne hj]
    cases h.subs.lookup j with
    | none => rfl
    | some sub => rw [map_some, hother j sub hj]

theorem Op.queue (hl : Listed h) (hi : h.subs.lookup i = some sub) (queue : Channel.State K Event)
    (hf : f i sub = { sub with queue }) (hother : ∀ j sub, j ≠ i → f j sub = sub) :
    Op f h { h with subs := h.subs.insert i { sub with queue } } := by
  have hlookup := lookup_insert_map hi hf hother
  have hsame : ∀ j, attached { h with subs := h.subs.insert i { sub with queue } } j = attached h j := by
    intro j
    rw [attached, attached]
    by_cases hj : j = i
    · rw [hj, AList.lookup_insert, hi]
      rfl
    · rw [AList.lookup_insert_ne hj]
  refine ⟨⟨h.topics, h.total, _, rfl⟩, hlookup, ⟨hl.once, fun n j => ?_, fun j => ?_, ?_⟩, fun _ hr => hr, fun _ ht => ht⟩
  · rw [show members n { h with subs := h.subs.insert i { sub with queue } } = members n h from rfl, hl.mem]
    dsimp only
    by_cases hj : j = i
    · subst hj
      rw [AList.lookup_insert, hi]
      simp
    · rw [AList.lookup_insert_ne hj]
  · rw [← hl.fresh]
    rw [hlookup, isSome_map]
  · have htotal := hl.total
    rwa [show attached h = attached { h with subs := h.subs.insert i { sub with queue } } from (funext hsame).symm] at htotal

def ended (sub : Sub K) : Sub K :=
  if sub.attached then { sub with attached := false, queue := Channel.close sub.queue } else sub

theorem ended_of_not (h : sub.attached = false) : ended sub = sub := by
  rw [ended, if_neg (by rw [h]; exact Bool.false_ne_true)]

theorem ended_attached (sub : Sub K) : (ended sub).attached = false := by
  rw [ended]
  by_cases h : sub.attached = true
  · rw [if_pos h]
  · rw [if_neg h]
    simpa using h

theorem ended_names (sub : Sub K) : (ended sub).names = sub.names ∧ (ended sub).gap = sub.gap := by
  rw [ended]
  split_ifs <;> exact ⟨rfl, rfl⟩

theorem Listed.leave (hl : Listed h) (hi : h.subs.lookup i = some sub) (hattached : sub.attached = true)
    (hsubs : h'.subs = h.subs.insert i (ended sub)) (hnext : h'.next = h.next) (htotal : h'.total = h.total - 1)
    (hmembers : ∀ n, members n h' = if n ∈ sub.names then (members n h).filter fun j => j ≠ i else members n h) :
    Listed h' := by
  have hlookup : ∀ j, h'.subs.lookup j = (h.subs.lookup j).map fun sub => if j = i then ended sub else sub := by
    rw [hsubs]
    exact lookup_insert_map hi (if_pos rfl) fun j sub hj => if_neg hj
  refine ⟨fun n => ?_, fun n j => ?_, fun j => ?_, ?_⟩
  · rw [hmembers]
    split_ifs
    · exact (hl.once n).filter _
    · exact hl.once n
  · have hmem : j ∈ members n h ↔ ∃ sub, h.subs.lookup j = some sub ∧ sub.attached = true ∧ n ∈ sub.names := hl.mem n j
    rw [hmembers, hlookup]
    by_cases hj : j = i
    · -- it is in no topic's list now: only those of its names had it
      subst hj
      constructor
      · intro hin
        by_cases hn : n ∈ sub.names
        · rw [if_pos hn] at hin
          exact absurd (List.mem_filter.mp hin).2 (by simp)
        · rw [if_neg hn] at hin
          obtain ⟨sub', hsub', -, hn'⟩ := hmem.mp hin
          rw [hi] at hsub'
          rw [← some.inj hsub'] at hn'
          exact absurd hn' hn
      · rintro ⟨sub', hsub', hattached', -⟩
        rw [hi, map_some, if_pos rfl] at hsub'
        rw [← some.inj hsub', ended_attached] at hattached'
        exact absurd hattached' Bool.false_ne_true
    · have hfilter : (j ∈ if n ∈ sub.names then (members n h).filter fun j => j ≠ i else members n h) ↔ j ∈ members n h := by
        split_ifs
        · rw [List.mem_filter]
          simp [hj]
        · rfl
      have hid : (h.subs.lookup j).map (fun sub => if j = i then ended sub else sub) = h.subs.lookup j := by
        cases h.subs.lookup j <;> simp [hj]
      rw [hid]
      exact hfilter.trans hmem
  · rw [hlookup, isSome_map, hl.fresh, hnext]
  · have hbefore : attached h i = true := by
      rwa [attached, hi]
    have hafter : ∀ j, attached h' j = if j = i then false else attached h j := by
      intro j
      rw [attached, hsubs]
      by_cases hj : j = i
      · rw [if_pos hj, hj, AList.lookup_insert]
        exact ended_attached sub
      · rw [if_neg hj, AList.lookup_insert_ne hj]
        rfl
    have hlt : i < h.next := (hl.fresh i).mp (by rw [hi]; rfl)
    have hcount : (List.range h.next).countP (attached h) = (List.range h.next).countP (attached h') + 1 :=
      countP_differ nodup_range (mem_range.mpr hlt) hbefore (by rw [hafter, if_pos rfl]) fun j _ hj => by
        rw [hafter, if_neg hj]
    have hbefore := hl.total
    rw [htotal, hnext]
    omega

/-- What is told of ending some subscriptions: those that were attached are. -/
def endings (h : State K) (subs : List ℕ) : List Out := subs.flatMap fun i => if attached h i then [.detached i] else []

theorem mem_endings {subs : List ℕ} {o : Out} :
    o ∈ endings h subs ↔ ∃ i ∈ subs, attached h i = true ∧ o = .detached i := by
  rw [endings, mem_flatMap]
  refine exists_congr fun i => and_congr_right fun _ => ?_
  by_cases hi : attached h i = true <;> simp [hi]

theorem detach_told (i : ℕ) (h : State K) : (detach i h).2 = if attached h i then [.detached i] else [] := by
  rw [detach]
  rcases hi : h.subs.lookup i with _ | sub
  · rw [attached, hi]
    rfl
  have hsub : attached h i = sub.attached := by
    rw [attached, hi]
    rfl
  rw [hsub]
  dsimp only
  split_ifs <;> rfl

theorem detach_op (hl : Listed h) (i : ℕ) : Op (fun j sub => if j = i then ended sub else sub) h (detach i h).1 := by
  rw [detach]
  rcases hi : h.subs.lookup i with _ | sub
  · refine .refl hl fun j sub hj => if_neg ?_
    rintro rfl
    rw [hi] at hj
    cases hj
  dsimp only
  by_cases hattached : sub.attached = true
  · rw [if_pos hattached]
    have hended : ended sub = { sub with attached := false, queue := Channel.close sub.queue } := by
      rw [ended, if_pos hattached]
    rw [← hended]
    have hspec := leave_topics_spec i sub.names { h with subs := h.subs.insert i (ended sub), total := h.total - 1 }
    have htidy : ∀ ex, TidyBut ex h →
        TidyBut ex (sub.names.foldl (leave_topic i) { h with subs := h.subs.insert i (ended sub), total := h.total - 1 }) :=
      fun ex (ht : TidyBut ex { h with subs := h.subs.insert i (ended sub), total := h.total - 1 }) => ht.leaves i sub.names
    obtain ⟨hretopic, hmembers⟩ := hspec
    obtain ⟨topics, hsame⟩ := hretopic.same
    refine ⟨⟨topics, h.total - 1, _, hsame⟩, fun j => ?_, ?_, fun published hr => ?_, htidy⟩
    · rw [show (sub.names.foldl (leave_topic i) _, [Out.detached i]).1 = _ from hsame]
      exact lookup_insert_map hi (f := fun j sub => if j = i then ended sub else sub) (if_pos rfl) (fun j sub hj => if_neg hj) j
    · exact hl.leave hi hattached (by rw [hsame]) (by rw [hsame]) (by rw [hsame]) hmembers
    · exact Recalls.retopic (h := { h with subs := h.subs.insert i (ended sub), total := h.total - 1 }) hr hretopic
  · rw [if_neg hattached]
    have hnot : sub.attached = false := by simpa using hattached
    refine .refl hl fun j sub' hj => ?_
    by_cases hji : j = i
    · rw [if_pos hji]
      rw [hji, hi] at hj
      rw [← some.inj hj, ended_of_not hnot]
    · exact if_neg hji

theorem all_op {β : Type} {f : Sub K → Sub K} {one : ℕ → State K → State K} {told : ℕ → State K → List β}
    {all : List ℕ → State K → State K × List β} (hnil : ∀ h, all [] h = (h, []))
    (hcons : ∀ i subs h, all (i :: subs) h = ((all subs (one i h)).1, told i h ++ (all subs (one i h)).2))
    (hone : ∀ i h, Listed h → Op (fun j sub => if j = i then f sub else sub) h (one i h))
    (htold : ∀ i h h', h.subs.lookup i = h'.subs.lookup i → told i h = told i h') :
    ∀ (subs : List ℕ) {h : State K}, Listed h → subs.Nodup →
      Op (fun j sub => if j ∈ subs then f sub else sub) h (all subs h).1 ∧ (all subs h).2 = subs.flatMap fun i => told i h
  | [], h, hl, _ => by
      rw [hnil]
      exact ⟨.refl hl fun _ _ _ => if_neg not_mem_nil, rfl⟩
  | i :: subs, h, hl, honce => by
      obtain ⟨hout, honce⟩ := nodup_cons.mp honce
      have hop := hone i h hl
      obtain ⟨hrest, hanswers⟩ := all_op hnil hcons hone htold subs hop.listed honce
      rw [hcons]
      refine ⟨hop.trans hrest fun j sub _ => ?_, ?_⟩
      · by_cases hj : j = i
        · rw [if_pos hj, if_pos (mem_cons.mpr (.inl hj)), if_neg (hj ▸ hout)]
        · rw [if_neg hj]
          by_cases hin : j ∈ subs
          · rw [if_pos hin, if_pos (mem_cons_of_mem _ hin)]
          · rw [if_neg hin, if_neg fun hmem => (mem_cons.mp hmem).elim hj hin]
      · rw [flatMap_cons, hanswers]
        refine congrArg _ (flatMap_congr fun j hj => htold j _ _ ?_)
        -- the others are as they were
        have hne : j ≠ i := fun hji => hout (hji ▸ hj)
        rw [hop.subs]
        cases h.subs.lookup j with
        | none => rfl
        | some sub => rw [map_some, if_neg hne]

def offered (ev : Event) (sub : Sub K) : Sub K := { sub with queue := (Channel.try_send ev sub.queue).1 }

theorem try_send_op (hl : Listed h) (ev : Event) (i : ℕ) :
    Op (fun j sub => if j = i then offered ev sub else sub) h (try_send ev i h).1 := by
  rw [try_send]
  rcases hi : h.subs.lookup i with _ | sub
  · refine .refl hl fun j sub hj => if_neg ?_
    rintro rfl
    rw [hi] at hj
    cases hj
  · exact .queue hl hi _ (if_pos rfl) fun j sub hj => if_neg hj

/-- What a subscription's queue answers to an event. -/
def told (ev : Event) (h : State K) (i : ℕ) : ℕ × Option (Channel.Event Event) :=
  (i, (h.subs.lookup i).bind fun sub => (Channel.try_send ev sub.queue).2)

/-- An event sent to several subscriptions goes to each of them once. -/
theorem deliver_op (ev : Event) (subs : List ℕ) (hl : Listed h) (honce : subs.Nodup) :
    Op (fun j sub => if j ∈ subs then offered ev sub else sub) h (deliver ev subs h).1 ∧
      (deliver ev subs h).2 = subs.map (told ev h) := by
  have hcons : ∀ i subs (h : State K), deliver ev (i :: subs) h =
      ((deliver ev subs (try_send ev i h).1).1, [told ev h i] ++ (deliver ev subs (try_send ev i h).1).2) := by
    intro i subs h
    have hanswer : (try_send ev i h).2 = (told ev h i).2 := by
      rw [try_send, told]
      cases h.subs.lookup i <;> rfl
    rw [deliver]
    dsimp only
    rw [hanswer]
    rfl
  rw [map_eq_flatMap]
  exact all_op (fun _ => rfl) hcons (fun i h hl => try_send_op hl ev i) (fun i h h' hi => by rw [told, hi, told]) subs hl honce

/-- Ending several subscriptions ends each of them, and tells of those that were attached. -/
theorem detach_all_op (subs : List ℕ) (hl : Listed h) (honce : subs.Nodup) :
    Op (fun j sub => if j ∈ subs then ended sub else sub) h (detach_all subs h).1 ∧
      (detach_all subs h).2 = endings h subs := by
  have hcons : ∀ i subs (h : State K), detach_all (i :: subs) h =
      ((detach_all subs (detach i h).1).1, (if attached h i then [.detached i] else []) ++ (detach_all subs (detach i h).1).2) := by
    intro i subs h
    rw [detach_all, ← detach_told]
  exact all_op (fun _ => rfl) hcons (fun i h hl => detach_op hl i) (fun i h h' hi => by rw [attached_congr hi]) subs hl honce

/-- A subscription closed: its queue too where the hub no longer delivers to it. -/
def closed_sub (sub : Sub K) : Sub K := ended { sub with queue := Channel.close sub.queue }

theorem closed_sub_queue (sub : Sub K) : (closed_sub sub).queue = Channel.close sub.queue := by
  rw [closed_sub, ended]
  split_ifs
  · exact Channel.close_twice _
  · rfl

theorem close_sub_told (i : ℕ) (h : State K) : (close_sub i h).2 = if attached h i then [.detached i] else [] := by
  rw [close_sub]
  rcases hi : h.subs.lookup i with _ | sub
  · rw [attached, hi]
    rfl
  · rw [detach_told, attached, attached, hi, AList.lookup_insert]
    rfl

theorem close_sub_op (hl : Listed h) (i : ℕ) :
    Op (fun j sub => if j = i then closed_sub sub else sub) h (close_sub i h).1 := by
  rw [close_sub]
  rcases hi : h.subs.lookup i with _ | sub
  · refine .refl hl fun j sub hj => if_neg ?_
    rintro rfl
    rw [hi] at hj
    cases hj
  · have hop : Op (fun j sub => if j = i then { sub with queue := Channel.close sub.queue } else sub) h _ :=
      .queue hl hi (Channel.close sub.queue) (if_pos rfl) fun j sub hj => if_neg hj
    refine hop.trans (detach_op hop.listed i) fun j sub _ => ?_
    by_cases hj : j = i
    · rw [if_pos hj, if_pos hj, if_pos hj, closed_sub]
    · rw [if_neg hj, if_neg hj, if_neg hj]

theorem close_all_op (subs : List ℕ) (hl : Listed h) (honce : subs.Nodup) :
    Op (fun j sub => if j ∈ subs then closed_sub sub else sub) h (close_all subs h).1 ∧
      (close_all subs h).2 = endings h subs := by
  have hcons : ∀ i subs (h : State K), close_all (i :: subs) h =
      ((close_all subs (close_sub i h).1).1, (if attached h i then [.detached i] else []) ++ (close_all subs (close_sub i h).1).2) := by
    intro i subs h
    rw [close_all, ← close_sub_told]
  exact all_op (fun _ => rfl) hcons (fun i h hl => close_sub_op hl i) (fun i h h' hi => by rw [attached_congr hi]) subs hl honce

/-! ## A new subscription -/

theorem Listed.unused (hl : Listed h) : h.subs.lookup h.next = none := by
  rw [← not_isSome_iff_eq_none, hl.fresh]
  exact Nat.lt_irrefl _

/-- A hub that a new subscription has joined lists it with the others. -/
theorem Listed.join (hl : Listed h) (hattached : sub.attached = true) (hsubs : h'.subs = h.subs.insert h.next sub)
    (hnext : h'.next = h.next + 1) (htotal : h'.total = h.total + 1)
    (hmembers : ∀ n, members n h' = if n ∈ sub.names then members n h ++ [h.next] else members n h) :
    Listed h' := by
  have hunused := hl.unused
  have hlookup : ∀ j, h'.subs.lookup j = if j = h.next then some sub else h.subs.lookup j := by
    intro j
    rw [hsubs]
    by_cases hj : j = h.next
    · rw [if_pos hj, hj, AList.lookup_insert]
    · rw [if_neg hj, AList.lookup_insert_ne hj]
  have hout : ∀ n, h.next ∉ members n h := by
    intro n hn
    obtain ⟨sub', hsub', -⟩ := hl.member hn
    rw [hunused] at hsub'
    cases hsub'
  refine ⟨fun n => ?_, fun n j => ?_, fun j => ?_, ?_⟩
  · rw [hmembers]
    split_ifs
    · exact (hl.once n).append (nodup_singleton _) (by simpa using hout n)
    · exact hl.once n
  · rw [hmembers, hlookup]
    by_cases hj : j = h.next
    · subst hj
      rw [if_pos rfl]
      have hold := hout n
      split_ifs with hn <;> simp [hattached, hn, hold]
    · rw [if_neg hj, ← hl.mem]
      split_ifs <;> simp [hj]
  · rw [hlookup, hnext]
    by_cases hj : j = h.next
    · rw [if_pos hj, hj]
      simp
    · rw [if_neg hj, hl.fresh]
      omega
  · have hold : (List.range h.next).countP (attached h') = (List.range h.next).countP (attached h) := by
      refine countP_congr fun j hj => ?_
      rw [attached, hlookup, if_neg (Nat.ne_of_lt (mem_range.mp hj)), attached]
    have hnew : attached h' h.next = true := by
      rwa [attached, hlookup, if_pos rfl]
    rw [htotal, hnext, range_succ, countP_append, hold, hl.total, countP_singleton, if_pos hnew]
    rfl

end Cosmic.Sse
