/-
The CONNECT reader, byte by byte.

A head is judged by one pass over its bytes, each judged by its position and by what came before it.
The reader's loop takes a chunk in longer steps; each of its rounds is shown to be the pass over the
bytes it takes, so that where a chunk ends decides nothing.
-/
import Cosmic.Relay.Connect
import Cosmic.Relay.SocksRead

set_option autoImplicit false

namespace Cosmic.Wire

open Cosmic.Base List Except

/-! ## The pass over the bytes -/

/-- Where a head stands after some bytes. -/
structure Scan where
  pos : ℕ
  line_start : ℕ
  text : Bytes
  after_cr : Bool
  said : Said

def Scan.start : Scan := ⟨0, 1, [], false, {}⟩

/-- One byte: past the cap of the head, after a carriage return, a control byte, past the cap of a
line, or a byte of the line. -/
def Scan.step (s : Scan) (b : UInt8) : Except Connect Scan :=
  if s.pos + 1 > MAX_HEAD then .error head_refusal
  else if s.after_cr then
    if b ≠ 10 then .error (refused (lit "a carriage return outside a CRLF line ending") 400)
    else
      (line s.said s.text (s.pos + 1)).map fun said => ⟨s.pos + 1, s.pos + 2, [], false, said⟩
  else if isSpecial b then
    if b = 13 then .ok { s with pos := s.pos + 1, after_cr := true }
    else if b = 10 then .error (refused (lit "a bare LF line ending (lines end in CRLF)") 400)
    else .error (refused (lit "control byte 0x" ++ hex2 b ++ lit " in the request head") 400)
  else if s.pos + 1 ≥ s.line_start + MAX_LINE then .error (line_refusal s.said.first)
  else .ok { s with pos := s.pos + 1, text := s.text ++ [b] }

def Scan.run (s : Scan) : Bytes → Except Connect Scan
  | [] => .ok s
  | b :: w =>
    match s.step b with
    | .error a => .error a
    | .ok s => s.run w

/-- What a head's first bytes say. -/
def connect_judge (b : Bytes) : Connect :=
  match Scan.start.run b with
  | .error a => a
  | .ok _ => { status := .more, consumed := 0 }

namespace Scan

variable {s s' : Scan} {a : Connect}

variable {b : UInt8}

theorem run_cons_ok (w : Bytes) (h : s.step b = .ok s') : s.run (b :: w) = s'.run w := by
  rw [run, h]

theorem run_cons_error (w : Bytes) (h : s.step b = .error a) : s.run (b :: w) = .error a := by
  rw [run, h]

variable {w : Bytes}

theorem run_append_ok (w' : Bytes) (h : s.run w = .ok s') : s.run (w ++ w') = s'.run w' := by
  induction w generalizing s with
  | nil => rw [← ok.inj h, nil_append]
  | cons b w ih =>
    cases hb : s.step b with
    | error a =>
      rw [run_cons_error w hb] at h
      cases h
    | ok t =>
      rw [run_cons_ok w hb] at h
      rw [cons_append, run_cons_ok _ hb, ih h]

theorem run_append_error (w' : Bytes) (h : s.run w = .error a) : s.run (w ++ w') = .error a := by
  induction w generalizing s with
  | nil => exact absurd h (by simp [run])
  | cons b w ih =>
    cases hb : s.step b with
    | error a' =>
      rw [run_cons_error w hb] at h
      rw [cons_append, run_cons_error _ hb, h]
    | ok t =>
      rw [run_cons_ok w hb] at h
      rw [cons_append, run_cons_ok _ hb, ih h]

theorem step_pos (h : s.step b = .ok s') : s'.pos = s.pos + 1 := by
  unfold step at h
  split_ifs at h
  · cases hl : line s.said s.text (s.pos + 1) with
    | error a =>
      rw [hl] at h
      cases h
    | ok said =>
      rw [hl] at h
      rw [← ok.inj h]
  · rw [← ok.inj h]
  · rw [← ok.inj h]

theorem run_pos (h : s.run w = .ok s') : s'.pos = s.pos + w.length := by
  induction w generalizing s with
  | nil =>
    rw [← ok.inj h]
    rfl
  | cons b w ih =>
    cases hb : s.step b with
    | error a =>
      rw [run_cons_error w hb] at h
      cases h
    | ok t =>
      rw [run_cons_ok w hb] at h
      rw [ih h, step_pos hb, length_cons]
      omega

theorem run_error (h : s.run w = .error a) : ∃ u b v t, w = u ++ b :: v ∧ s.run u = .ok t ∧ t.step b = .error a := by
  induction w generalizing s with
  | nil => exact absurd h (by simp [run])
  | cons b w ih =>
    cases hb : s.step b with
    | error a' =>
      rw [run_cons_error w hb] at h
      exact ⟨[], b, w, s, rfl, rfl, by rw [hb, h]⟩
    | ok t =>
      rw [run_cons_ok w hb] at h
      obtain ⟨u, c, v, t', rfl, hu, hc⟩ := ih h
      exact ⟨b :: u, c, v, t', rfl, by rw [run_cons_ok u hb, hu], hc⟩

end Scan

/-! ## The rounds of the loop -/

theorem find_special (u v : Bytes) : (find isSpecial (u ++ v) (u.length + 1) = none ∧ ∀ b ∈ v, isSpecial b = false) ∨
      ∃ w b x, v = w ++ b :: x ∧ (∀ c ∈ w, isSpecial c = false) ∧ isSpecial b = true ∧
        find isSpecial (u ++ v) (u.length + 1) = some (u.length + w.length + 1) := by
  unfold find
  rw [Nat.add_sub_cancel, drop_left]
  cases hf : v.findIdx? isSpecial with
  | none => exact .inl ⟨rfl, findIdx?_eq_none_iff.mp hf⟩
  | some k =>
    obtain ⟨hk, hb, hbefore⟩ := findIdx?_eq_some_iff_getElem.mp hf
    refine .inr ⟨v.take k, v[k], v.drop (k + 1), ?_, ?_, hb, ?_⟩
    · rw [← drop_eq_getElem_cons hk, take_append_drop]
    · intro c hc
      obtain ⟨j, hj, rfl⟩ := mem_iff_getElem.mp hc
      rw [length_take] at hj
      rw [getElem_take]
      simpa using hbefore j (by omega)
    · rw [length_take, Nat.min_eq_left (Nat.le_of_lt hk), Option.map_some]
      congr 1
      omega

/-- The reader's state, `n` bytes into a chunk, is where the head stands; and no cap is passed. -/
structure Stands (st : Reading) (n : ℕ) (s : Scan) : Prop where
  pos : s.pos = st.seen + n
  line_start : s.line_start = st.line_start
  text : s.text = st.pieces.flatten
  after_cr : s.after_cr = st.after_cr
  said : s.said = st.said
  head_room : s.pos ≤ MAX_HEAD
  line_room : s.after_cr = false → s.pos < s.line_start + MAX_LINE

variable {s : Scan} {w : Bytes}

theorem run_plain (hcr : s.after_cr = false) (hw : ∀ b ∈ w, isSpecial b = false) (hhead : s.pos ≤ MAX_HEAD)
    (hline : s.pos < s.line_start + MAX_LINE) :
    s.run w =
      if MAX_HEAD < s.pos + w.length ∧ (¬s.line_start + MAX_LINE ≤ s.pos + w.length ∨
        MAX_HEAD + 1 ≤ s.line_start + MAX_LINE) then .error head_refusal
      else if s.line_start + MAX_LINE ≤ s.pos + w.length then .error (line_refusal s.said.first)
      else .ok { s with pos := s.pos + w.length, text := s.text ++ w } := by
  induction w generalizing s with
  | nil =>
    rw [length_nil, if_neg (by omega), if_neg (by omega), append_nil]
    rfl
  | cons b w ih =>
    have hb : isSpecial b = false := hw b mem_cons_self
    rw [length_cons]
    by_cases hpast : s.pos + 1 > MAX_HEAD
    · rw [Scan.run_cons_error w (by rw [Scan.step, if_pos hpast]), if_pos (by omega)]
    have hstep : s.step b =
        if s.pos + 1 ≥ s.line_start + MAX_LINE then .error (line_refusal s.said.first)
        else .ok { s with pos := s.pos + 1, text := s.text ++ [b] } := by
      rw [Scan.step, if_neg hpast, hcr, if_neg (by simp), hb, if_neg (by simp)]
    by_cases hlong : s.pos + 1 ≥ s.line_start + MAX_LINE
    · rw [if_pos hlong] at hstep
      rw [Scan.run_cons_error w hstep, if_neg (by omega), if_pos (by omega)]
    rw [if_neg hlong] at hstep
    have hrest := @ih { s with pos := s.pos + 1, text := s.text ++ [b] } hcr
      (fun c hc => hw c (mem_cons_of_mem b hc)) (Nat.le_of_not_lt hpast)
      (Nat.lt_of_not_le hlong)
    rw [Scan.run_cons_ok w hstep, hrest]
    rw [show s.pos + 1 + w.length = s.pos + (w.length + 1) by omega, append_assoc]
    rfl

/-- What taking a step from `st` to `st'` leaves as it was. -/
structure Same (st st' : Reading) : Prop where
  seen : st'.seen = st.seen
  final : st'.final = st.final

variable {st : Reading}

theorem plain_bytes_spec {n : ℕ} (h : Stands st n s) (hcr : st.after_cr = false) {chunk : Bytes}
    (hw : ∀ b ∈ w, isSpecial b = false) {i last : ℕ} (hsub : sub chunk i last = w) (hlast : last = n + w.length) :
    (∀ a, plain_bytes st chunk i last = .error a → s.run w = .error a) ∧
      ∀ st', plain_bytes st chunk i last = .ok st' →
        ∃ s', s.run w = .ok s' ∧ Stands st' last s' ∧ Same st st' ∧ st'.after_cr = false := by
  have hline := h.line_room (h.after_cr.trans hcr)
  have hpos := h.pos
  have hstart := h.line_start
  have hrun := run_plain (h.after_cr.trans hcr) hw h.head_room hline
  rw [show s.pos + w.length = st.seen + last by omega, hstart, h.said] at hrun
  unfold plain_bytes
  by_cases hhead : st.seen + last > MAX_HEAD ∧
      (¬st.seen + last ≥ st.line_start + MAX_LINE ∨ MAX_HEAD + 1 ≤ st.line_start + MAX_LINE)
  · rw [if_pos hhead]
    rw [if_pos hhead] at hrun
    exact ⟨fun a ha => by rw [hrun, error.inj ha], fun st' hst => absurd hst (by simp)⟩
  rw [if_neg hhead]
  rw [if_neg hhead] at hrun
  by_cases hlong : st.seen + last ≥ st.line_start + MAX_LINE
  · rw [if_pos hlong]
    rw [if_pos hlong] at hrun
    exact ⟨fun a ha => by rw [hrun, error.inj ha], fun st' hst => absurd hst (by simp)⟩
  rw [if_neg hlong]
  rw [if_neg hlong] at hrun
  refine ⟨fun a ha => absurd ha (by simp), fun st' hst => ⟨_, hrun, ?_, ?_, ?_⟩⟩
  · rw [← ok.inj hst]
    refine ⟨rfl, rfl, ?_, h.after_cr, rfl, ?_, fun _ => ?_⟩
    · rw [h.text, flatten_append, flatten_singleton, hsub]
    · dsimp only
      omega
    · dsimp only
      omega
  · rw [← ok.inj hst]
    exact ⟨rfl, rfl⟩
  · rwa [← ok.inj hst]

theorem before_special_spec {u x : Bytes} (h : Stands st u.length s) (hcr : st.after_cr = false)
    (hw : ∀ b ∈ w, isSpecial b = false) {step : Except Connect Reading}
    (hstep : step = if u.length + w.length + 1 - 1 ≥ u.length + 1 then plain_bytes st (u ++ (w ++ x)) (u.length + 1) (u.length + w.length + 1 - 1) else .ok st) :
    (∀ a, step = .error a → s.run w = .error a) ∧ ∀ st', step = .ok st' →
        ∃ s', s.run w = .ok s' ∧ Stands st' (u.length + w.length) s' ∧ Same st st' ∧ st'.after_cr = false := by
  rw [Nat.add_sub_cancel] at hstep
  by_cases hsome : u.length + w.length ≥ u.length + 1
  · rw [if_pos hsome] at hstep
    rw [hstep]
    exact plain_bytes_spec h hcr hw (sub_middle u w x rfl rfl) rfl
  · have hnil : w = [] := length_eq_zero_iff.mp (by omega)
    rw [if_neg hsome] at hstep
    rw [hstep, hnil]
    refine ⟨fun a ha => absurd ha (by simp), fun st' hst => ?_⟩
    rw [← ok.inj hst]
    exact ⟨s, rfl, h, ⟨rfl, rfl⟩, hcr⟩

theorem special_byte_spec {n : ℕ} (h : Stands st n s) (hcr : st.after_cr = false) {b : UInt8}
    (hb : isSpecial b = true) (hroom : ¬st.seen + n + 1 > MAX_HEAD) :
    (∀ a, special_byte st b = .error a → s.step b = .error a) ∧ ∀ st', special_byte st b = .ok st' →
        ∃ s', s.step b = .ok s' ∧ Stands st' (n + 1) s' ∧ Same st st' := by
  have hpos := h.pos
  have hstep : s.step b =
      if b = 13 then .ok { s with pos := s.pos + 1, after_cr := true }
      else if b = 10 then .error (refused (lit "a bare LF line ending (lines end in CRLF)") 400)
      else .error (refused (lit "control byte 0x" ++ hex2 b ++ lit " in the request head") 400) := by
    rw [Scan.step, if_neg (by omega), h.after_cr, hcr, if_neg (by simp), if_pos hb]
  unfold special_byte
  rw [hstep]
  by_cases hcarriage : b = 13
  · rw [if_pos hcarriage, if_pos hcarriage]
    refine ⟨fun a ha => absurd ha (by simp), fun st' hst => ⟨_, rfl, ?_, ?_⟩⟩
    · rw [← ok.inj hst]
      refine ⟨?_, h.line_start, h.text, rfl, h.said, ?_, fun hno => absurd hno (by simp)⟩
      · dsimp only
        omega
      · dsimp only
        omega
    · rw [← ok.inj hst]
      exact ⟨rfl, rfl⟩
  · rw [if_neg hcarriage, if_neg hcarriage]
    by_cases hlf : b = 10
    · rw [if_pos hlf, if_pos hlf]
      exact ⟨fun a ha => congrArg _ (error.inj ha), fun st' hst => absurd hst (by simp)⟩
    · rw [if_neg hlf, if_neg hlf]
      exact ⟨fun a ha => congrArg _ (error.inj ha), fun st' hst => absurd hst (by simp)⟩

theorem connect_round_spec {u v : Bytes} (hv : v ≠ []) (h : Stands st u.length s) :
    (∀ a, connect_round (u ++ v) st (u.length + 1) = .error a → s.run v = .error a) ∧
      ∀ st' i, connect_round (u ++ v) st (u.length + 1) = .ok (st', i) →
        ∃ w x s', v = w ++ x ∧ w ≠ [] ∧ i = u.length + w.length + 1 ∧ s.run w = .ok s' ∧
          Stands st' (u.length + w.length) s' ∧ Same st st' := by
  have hpos := h.pos
  obtain ⟨b, v', rfl⟩ := exists_cons_of_ne_nil hv
  unfold connect_round
  by_cases hpast : st.seen + (u.length + 1) > MAX_HEAD
  · rw [if_pos hpast]
    refine ⟨fun a ha => ?_, fun st' i hst => absurd hst (by simp)⟩
    rw [← error.inj ha]
    exact Scan.run_cons_error v' (by rw [Scan.step, if_pos (by omega)])
  rw [if_neg hpast]
  by_cases hcr : st.after_cr = true
  · -- the end of a line, or no line at all
    rw [if_pos hcr, byte_at_middle u b v' rfl]
    have hstep : s.step b =
        if b ≠ 10 then .error (refused (lit "a carriage return outside a CRLF line ending") 400)
        else (line s.said s.text (s.pos + 1)).map fun said => ⟨s.pos + 1, s.pos + 2, [], false, said⟩ := by
      rw [Scan.step, if_neg (by omega), h.after_cr, if_pos hcr]
    by_cases hlf : b ≠ 10
    · rw [if_pos hlf]
      rw [if_pos hlf] at hstep
      refine ⟨fun a ha => ?_, fun st' i hst => absurd hst (by simp)⟩
      rw [← error.inj ha]
      exact Scan.run_cons_error v' hstep
    · rw [if_neg hlf]
      rw [if_neg hlf, h.said, h.text, show s.pos + 1 = st.seen + (u.length + 1) by omega] at hstep
      cases hl : line st.said st.pieces.flatten (st.seen + (u.length + 1)) with
      | error answer =>
        rw [hl] at hstep
        refine ⟨fun a ha => ?_, fun st' i hst => absurd hst (by simp [Except.map])⟩
        have heq : answer = a := error.inj ha
        rw [← heq]
        exact Scan.run_cons_error v' hstep
      | ok said =>
        rw [hl] at hstep
        refine ⟨fun a ha => absurd ha (by simp [Except.map]), fun st' i hst => ?_⟩
        obtain ⟨hst', hi⟩ := Prod.mk.inj (ok.inj hst)
        refine ⟨[b], v', _, rfl, by simp, hi.symm, Scan.run_cons_ok [] hstep, ?_, ?_⟩
        · rw [← hst']
          refine ⟨rfl, ?_, rfl, rfl, rfl, ?_, fun _ => ?_⟩
          · dsimp only
            omega
          · dsimp only
            omega
          · show st.seen + (u.length + 1) < s.pos + 2 + 8192
            omega
        · rw [← hst']
          exact ⟨rfl, rfl⟩
  · have hcr' : st.after_cr = false := by simpa using hcr
    rw [if_neg hcr]
    rcases find_special u (b :: v') with ⟨hfind, hplain⟩ | ⟨w, c, x, hsplit, hw, hc, hfind⟩
    · -- no control byte: the rest of the chunk
      rw [hfind]
      have hsub : sub (u ++ b :: v') (u.length + 1) (u ++ b :: v').length = b :: v' := by
        have hmiddle := sub_middle u (b :: v') [] rfl rfl
        rwa [append_nil, ← length_append] at hmiddle
      obtain ⟨herror, hok⟩ := plain_bytes_spec h hcr' hplain hsub length_append
      cases hp : plain_bytes st (u ++ b :: v') (u.length + 1) (u ++ b :: v').length with
      | error answer =>
        refine ⟨fun a ha => ?_, fun st' i hst => absurd hst (by simp [Except.map])⟩
        rw [← (error.inj ha : answer = a)]
        exact herror _ hp
      | ok st₁ =>
        refine ⟨fun a ha => absurd ha (by simp [Except.map]), fun st' i hst => ?_⟩
        obtain ⟨s', hrun, hstands, hsame, -⟩ := hok st₁ hp
        obtain ⟨hst', hi⟩ := Prod.mk.inj (ok.inj hst)
        rw [length_append] at hi hstands
        rw [← hst']
        exact ⟨b :: v', [], s', (append_nil _).symm, by simp, hi.symm, hrun, hstands, hsame⟩
    · -- the bytes before a control byte, and that byte
      rw [hfind, hsplit]
      dsimp only
      cases hp : (if u.length + w.length + 1 - 1 ≥ u.length + 1 then
          plain_bytes st (u ++ (w ++ c :: x)) (u.length + 1) (u.length + w.length + 1 - 1)
        else .ok st) with
      | error answer =>
        refine ⟨fun a ha => ?_, fun st' i hst => absurd hst (by simp)⟩
        rw [← (error.inj ha : answer = a)]
        exact Scan.run_append_error _ ((before_special_spec h hcr' hw hp.symm).1 _ rfl)
      | ok st₁ =>
        obtain ⟨s₁, hrun, hstands, hsame, hcr₁⟩ := (before_special_spec h hcr' hw hp.symm).2 st₁ rfl
        have hpos₁ := hstands.pos
        dsimp only
        rw [show u ++ (w ++ c :: x) = (u ++ w) ++ c :: x by simp, byte_at_middle (u ++ w) c x (by simp)]
        by_cases hcap : st₁.seen + (u.length + w.length + 1) > MAX_HEAD
        · rw [if_pos hcap]
          refine ⟨fun a ha => ?_, fun st' i hst => absurd hst (by simp)⟩
          rw [← error.inj ha, Scan.run_append_ok _ hrun]
          exact Scan.run_cons_error x (by rw [Scan.step, if_pos (by omega)])
        rw [if_neg hcap]
        obtain ⟨herror, hok⟩ := special_byte_spec hstands hcr₁ hc (by omega)
        cases hs : special_byte st₁ c with
        | error answer =>
          refine ⟨fun a ha => ?_, fun st' i hst => absurd hst (by simp [Except.map])⟩
          rw [← (error.inj ha : answer = a), Scan.run_append_ok _ hrun]
          exact Scan.run_cons_error x (herror _ hs)
        | ok st₂ =>
          refine ⟨fun a ha => absurd ha (by simp [Except.map]), fun st' i hst => ?_⟩
          obtain ⟨s₂, hstep, hstands₂, hsame₂⟩ := hok st₂ hs
          obtain ⟨hst', hi⟩ := Prod.mk.inj (ok.inj hst)
          have hlen : (w ++ [c]).length = w.length + 1 := by simp
          rw [← hst', ← hi]
          refine ⟨w ++ [c], x, s₂, by simp, by simp, by omega, ?_, ?_, ?_⟩
          · rw [Scan.run_append_ok _ hrun, Scan.run_cons_ok _ hstep]
            rfl
          · rwa [hlen]
          · exact ⟨hsame₂.seen.trans hsame.seen, hsame₂.final.trans hsame.final⟩

/-- The loop is the pass over what is left of the chunk, by induction on the rounds it is given: each
takes a byte at least. -/
theorem connect_loop_spec {rounds : ℕ} {u v : Bytes} (hrounds : v.length ≤ rounds) {st : Reading}
    {s : Scan} (h : Stands st u.length s) :
    (∀ a, s.run v = .error a → ∃ st', connect_loop (u ++ v) rounds st (u.length + 1) = .error (finish st' a)) ∧
    ∀ s', s.run v = .ok s' → ∃ st', connect_loop (u ++ v) rounds st (u.length + 1) = .ok st' ∧
        Stands st' (u ++ v).length s' ∧ Same st st' := by
  induction rounds generalizing u v st s with
  | zero =>
    have hv : v = [] := length_eq_zero_iff.mp (Nat.le_zero.mp hrounds)
    rw [hv, append_nil]
    refine ⟨fun a ha => absurd ha (by simp [Scan.run]), fun s' hs => ?_⟩
    rw [← ok.inj hs]
    exact ⟨st, rfl, h, rfl, rfl⟩
  | succ rounds ih =>
    by_cases hv : v = []
    · rw [hv, append_nil, connect_loop, if_neg (by omega)]
      refine ⟨fun a ha => absurd ha (by simp [Scan.run]), fun s' hs => ?_⟩
      rw [← ok.inj hs]
      exact ⟨st, rfl, h, rfl, rfl⟩
    have hpos := length_pos_of_ne_nil hv
    rw [connect_loop, if_pos (by rw [length_append]; omega)]
    obtain ⟨herror, hok⟩ := connect_round_spec hv h
    cases hr : connect_round (u ++ v) st (u.length + 1) with
    | error answer =>
      rw [herror answer hr]
      refine ⟨fun a ha => ⟨st, ?_⟩, fun s' hs => absurd hs (by simp)⟩
      rw [error.inj ha]
    | ok next =>
      obtain ⟨st₁, i⟩ := next
      obtain ⟨w, x, s₁, rfl, hw, rfl, hrun, hstands, hsame⟩ := hok st₁ i hr
      have hwpos := length_pos_of_ne_nil hw
      rw [length_append] at hrounds
      rw [← length_append] at hstands
      obtain ⟨herror', hok'⟩ := @ih (u ++ w) x (by omega) st₁ s₁ hstands
      rw [show (u ++ w).length = u.length + w.length from length_append, append_assoc] at herror' hok'
      rw [Scan.run_append_ok _ hrun]
      refine ⟨herror', fun s' hs => ?_⟩
      obtain ⟨st', hloop, hstands', hsame'⟩ := hok' s' hs
      exact ⟨st', hloop, hstands', hsame'.seen.trans hsame.seen, hsame'.final.trans hsame.final⟩

/-! ## The reader -/

theorem connect_judge_append {b : Bytes} (more : Bytes) (h : (connect_judge b).status ≠ .more) :
    connect_judge (b ++ more) = connect_judge b := by
  unfold connect_judge at h ⊢
  cases hrun : Scan.start.run b with
  | error a => rw [Scan.run_append_error more hrun]
  | ok s =>
    rw [hrun] at h
    exact absurd rfl h

/-- An answer that is a refusal, or is done after `n` bytes. -/
structure Connect.After (a : Connect) (n : ℕ) : Prop where
  decided : a.status ≠ .more
  done : a.Done → a.consumed = n
  refused : ¬a.Done → a.consumed = 0

theorem refused_after (why : Bytes) (http_status n : ℕ) : (refused why http_status).After n :=
  ⟨fun h => by simp [refused] at h, fun h => by simp [Connect.Done, refused] at h, fun _ => rfl⟩

variable {said : Said} {content : Bytes} {a : Connect}

theorem request_line_after (h : request_line said content = .error a) (n : ℕ) : a.After n := by
  unfold request_line at h
  split at h
  · rw [← error.inj h]
    exact refused_after _ _ n
  split at h
  · rw [← error.inj h]
    exact refused_after _ _ n
  split at h
  · rw [← error.inj h]
    exact refused_after _ _ n
  · split at h
    · rw [← error.inj h]
      exact refused_after _ _ n
    · cases h

theorem header_line_after (h : header_line said content = .error a) (n : ℕ) : a.After n := by
  unfold header_line at h
  dsimp only at h
  split at h
  · rw [← error.inj h]
    exact refused_after _ _ n
  split at h
  · rw [← error.inj h]
    exact refused_after _ _ n
  split at h
  · rw [← error.inj h]
    exact refused_after _ _ n
  split at h
  · split at h
    · rw [← error.inj h]
      exact refused_after _ _ n
    · cases h
  · cases h

theorem line_after {at_ : ℕ} (h : line said content at_ = .error a) : a.After at_ := by
  unfold line at h
  split at h
  · exact request_line_after h at_
  split at h
  · rw [← error.inj h]
    exact ⟨fun hs => by simp at hs, fun _ => rfl, fun hd => absurd rfl hd⟩
  · split at h
    · rw [← error.inj h]
      exact refused_after _ _ at_
    · exact header_line_after h at_

theorem Scan.step_after {b : UInt8} (h : s.step b = .error a) : a.After (s.pos + 1) := by
  unfold Scan.step at h
  split at h
  · rw [← error.inj h]
    exact refused_after _ _ _
  split at h
  · split at h
    · rw [← error.inj h]
      exact refused_after _ _ _
    cases hl : line s.said s.text (s.pos + 1) with
    | error answer =>
      rw [hl] at h
      rw [← (error.inj h : answer = a)]
      exact line_after hl
    | ok said =>
      rw [hl] at h
      cases h
  · split at h
    · split at h
      · cases h
      · split at h
        · rw [← error.inj h]
          exact refused_after _ _ _
        · rw [← error.inj h]
          exact refused_after _ _ _
    · split at h
      · rw [← error.inj h]
        exact refused_after _ _ _
      · cases h

theorem connect_judge_cases (b : Bytes) :
    (connect_judge b = { status := .more, consumed := 0 } ∧ ∃ s, Scan.start.run b = .ok s) ∨
      ∃ w c x, b = w ++ c :: x ∧ (connect_judge b).After (w.length + 1) ∧
        connect_judge (w ++ [c]) = connect_judge b := by
  unfold connect_judge
  cases hrun : Scan.start.run b with
  | ok s => exact .inl ⟨rfl, s, rfl⟩
  | error a =>
    obtain ⟨w, c, x, t, rfl, hw, hc⟩ := Scan.run_error hrun
    have hpos : t.pos = w.length := (Scan.run_pos hw).trans (Nat.zero_add _)
    have hafter := Scan.step_after hc
    rw [hpos] at hafter
    refine .inr ⟨w, c, x, rfl, hafter, ?_⟩
    rw [Scan.run_append_ok _ hw, Scan.run_cons_error [] hc]

theorem connect_reader_reads : connect_reader.Reads connect_judge (·.status ≠ .more) := by
  apply Feeder.reads_of (fun b st => st.final = none ∧ ∃ s, Scan.start.run b = .ok s ∧ Stands st 0 s)
    (fun a st => st.final = some a)
  · exact fun b more => connect_judge_append more
  · exact ⟨rfl, Scan.start, rfl, rfl, rfl, rfl, rfl, rfl, Nat.zero_le _, fun _ => by decide⟩
  · rintro b st c ⟨hfinal, s, hrun, hstands⟩
    have hloop := @connect_loop_spec c.length [] c le_rfl st s hstands
    have hrun' := Scan.run_append_ok c hrun
    rw [nil_append, length_nil, Nat.zero_add] at hloop
    unfold connect_judge
    rw [hrun']
    cases hc : s.run c with
    | error a =>
      obtain ⟨st', hst'⟩ := hloop.1 a hc
      have hfeed : connect_reader.feed st c = finish st' a := by
        unfold connect_reader
        dsimp only
        rw [hfinal, hst']
      obtain ⟨w, d, x, t, -, -, hd⟩ := Scan.run_error hc
      rw [hfeed]
      exact ⟨rfl, .inr ⟨(Scan.step_after hd).decided, rfl⟩⟩
    | ok s' =>
      obtain ⟨st', hst', hstands', hsame⟩ := hloop.2 s' hc
      have hfeed : connect_reader.feed st c =
          ({ st' with seen := st'.seen + c.length }, { status := .more, consumed := 0 }) := by
        unfold connect_reader
        dsimp only
        rw [hfinal, hst']
      rw [hfeed]
      refine ⟨rfl, .inl ⟨hsame.final.trans hfinal, s', rfl, ?_⟩⟩
      exact ⟨hstands'.pos, hstands'.line_start, hstands'.text, hstands'.after_cr, hstands'.said,
        hstands'.head_room, hstands'.line_room⟩
  · intro a st c hst
    have hfeed : connect_reader.feed st c = (st, a) := by
      unfold connect_reader
      dsimp only
      rw [hst]
    rw [hfeed]
    exact ⟨rfl, hst⟩

theorem connect_reader_invariant :
    connect_reader.SplitInvariant (·.status ≠ .more) Connect.Done Connect.consumed := by
  apply connect_reader_reads.splitInvariant
  · intro b hd
    rw [hd]
    decide
  · intro b
    rcases connect_judge_cases b with ⟨hmore, -⟩ | ⟨w, c, x, rfl, hafter, -⟩
    · rw [hmore]
      exact Nat.zero_le _
    · by_cases hd : (connect_judge (w ++ c :: x)).Done
      · rw [hafter.done hd, length_append, length_cons]
        omega
      · rw [hafter.refused hd]
        exact Nat.zero_le _
  · intro b hd
    rcases connect_judge_cases b with ⟨hmore, -⟩ | ⟨w, c, x, rfl, hafter, hsame⟩
    · rw [hmore] at hd
      exact absurd hd (by simp [Connect.Done])
    · have htake : (w ++ c :: x).take (w.length + 1) = w ++ [c] := by
        rw [show w ++ c :: x = (w ++ [c]) ++ x by simp, ← show (w ++ [c]).length = w.length + 1 by simp, take_left]
      rw [hafter.done hd, htake, hsame]

end Cosmic.Wire
