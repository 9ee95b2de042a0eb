/-
The SOCKS5 readers, however they are fed, and the agreement of a client and a server.
-/
import Cosmic.Relay.SocksMessage

set_option autoImplicit false

namespace Cosmic.Wire

open Cosmic.Base List Option Except

/-! ## The readers -/

theorem small_reader_reads {α : Type} {read : Bytes → α} {status : α → Status}
    (h : ∀ b more, Settled (status · ≠ .more) (read b) (read (b ++ more))) :
    (small_reader read fun a => status a != .more).Reads read (status · ≠ .more) := by
  apply Feeder.reads_of (fun b s => s = ⟨b, none⟩) (fun a s => s.final = some a)
  · exact fun b more => h b more
  · rfl
  · rintro b s c rfl
    by_cases hd : status (read (b ++ c)) = .more
    · have hfeed : (small_reader read fun a => status a != .more).feed ⟨b, none⟩ c =
          (⟨b ++ c, none⟩, read (b ++ c)) := by
        show (if status (read (b ++ c)) != .more then _ else _) = _
        rw [hd]
        rfl
      rw [hfeed]
      exact ⟨rfl, .inl rfl⟩
    · have hfeed : (small_reader read fun a => status a != .more).feed ⟨b, none⟩ c =
          (⟨[], some (read (b ++ c))⟩, read (b ++ c)) := by
        show (if status (read (b ++ c)) != .more then _ else _) = _
        rw [if_pos (bne_iff_ne.mpr hd)]
      rw [hfeed]
      exact ⟨rfl, .inr ⟨hd, rfl⟩⟩
  · intro a s c hs
    have hfeed : (small_reader read fun a => status a != .more).feed s c = (s, a) := by
      unfold small_reader
      dsimp only
      rw [hs]
    rw [hfeed]
    exact ⟨rfl, hs⟩

theorem socks_greeting_reader_reads (password : Bool) :
    (socks_greeting_reader password).Reads (read_greeting · password) (·.status ≠ .more) :=
  small_reader_reads fun b more => read_greeting_settled b more password

theorem socks_auth_reader_reads : socks_auth_reader.Reads read_auth (·.status ≠ .more) :=
  small_reader_reads read_auth_settled

theorem socks_request_reader_reads : socks_request_reader.Reads read_request (·.status ≠ .more) :=
  small_reader_reads read_request_settled

theorem socks_method_reader_reads (password : Bool) :
    (socks_method_reader password).Reads (read_method_answer · password) (·.status ≠ .more) :=
  small_reader_reads fun b more => read_method_answer_settled b more password

theorem socks_auth_status_reader_reads : socks_auth_status_reader.Reads read_auth_answer (·.status ≠ .more) :=
  small_reader_reads read_auth_answer_settled

theorem socks_answer_reader_reads : socks_answer_reader.Reads read_answer (·.status ≠ .more) :=
  small_reader_reads read_answer_settled

/-! ## Whatever the cuts -/

theorem socks_greeting_reader_invariant (password : Bool) :
    (socks_greeting_reader password).SplitInvariant (·.status ≠ .more) SocksGreeting.Done SocksGreeting.consumed := by
  apply (socks_greeting_reader_reads password).splitInvariant_of_messages
  · intro b hd
    rw [hd]
    decide
  · intro b
    unfold read_greeting
    dsimp only
    split_ifs <;> first | exact fun _ => rfl | exact fun hd => absurd rfl hd
  · exact fun m a rest h => read_greeting_message h rest
  · exact fun b => read_greeting_done

theorem socks_auth_reader_invariant :
    socks_auth_reader.SplitInvariant (·.status ≠ .more) SocksAuth.Done SocksAuth.consumed := by
  apply socks_auth_reader_reads.splitInvariant_of_messages
  · intro b hd
    rw [hd]
    decide
  · intro b
    unfold read_auth
    dsimp only
    split_ifs <;> first | exact fun _ => rfl | exact fun hd => absurd rfl hd
  · exact fun m a rest h => read_auth_message h rest
  · exact fun b => read_auth_done

theorem socks_method_reader_invariant (password : Bool) :
    (socks_method_reader password).SplitInvariant (·.status ≠ .more) SocksMethodAnswer.Done
      SocksMethodAnswer.consumed := by
  apply (socks_method_reader_reads password).splitInvariant_of_messages
  · intro b hd
    rw [hd]
    decide
  · intro b
    unfold read_method_answer
    dsimp only
    split_ifs <;> first | exact fun _ => rfl | exact fun hd => absurd rfl hd
  · exact fun m a rest h => read_method_answer_message h rest
  · exact fun b => read_method_answer_done

theorem socks_auth_status_reader_invariant :
    socks_auth_status_reader.SplitInvariant (·.status ≠ .more) SocksAuthAnswer.Done SocksAuthAnswer.consumed := by
  apply socks_auth_status_reader_reads.splitInvariant_of_messages
  · intro b hd
    rw [hd]
    decide
  · intro b
    unfold read_auth_answer
    split_ifs <;> first | exact fun _ => rfl | exact fun hd => absurd rfl hd
  · exact fun m a rest h => read_auth_answer_message h rest
  · exact fun b => read_auth_answer_done

theorem socks_request_reader_invariant : socks_request_reader.SplitInvariant (·.status ≠ .more) SocksRequest.Done
      SocksRequest.consumed := by
  apply socks_request_reader_reads.splitInvariant_of_messages
  · intro b hd
    rw [hd]
    decide
  · intro b
    unfold read_request
    cases hr : request_host b with
    | error a =>
      have ha := (request_host_error hr).2
      split_ifs <;> first | exact fun _ => rfl | exact fun _ => ha
    | ok found =>
      dsimp only
      split_ifs <;> first | exact fun _ => rfl | exact fun hd => absurd rfl hd
  · exact fun m a rest h => read_request_message h rest
  · exact fun b => read_request_done

theorem socks_answer_reader_invariant :
    socks_answer_reader.SplitInvariant (·.status ≠ .more) SocksAnswer.Done SocksAnswer.consumed := by
  apply socks_answer_reader_reads.splitInvariant_of_messages
  · intro b hd
    rw [hd]
    decide
  · intro b
    unfold read_answer
    cases hw : answer_width b with
    | error a =>
      have ha := (answer_width_error hw).2
      split_ifs <;> first | exact fun _ => rfl | exact fun _ => ha
    | ok width =>
      dsimp only
      split_ifs <;> first | exact fun _ => rfl | exact fun hd => absurd rfl hd
  · exact fun m a rest h => read_answer_message h rest
  · exact fun b => read_answer_done

/-! ## A client and a server -/

theorem client_request_read {host m : Bytes} {port : ℤ} (h : socks_client_request host port = .ok m)
    (rest : Bytes) :
    (∃ kind canonical bytes,
      Grant.Host (Grant.display kind.grant host) kind.grant canonical bytes ∧
        (∀ b ∈ bytes, Grant.address canonical = some b) ∧
        read_request (m ++ rest) =
          { status := .done, consumed := m.length, host := some canonical, kind := some kind
            port := some port.toNat }) ∨
    ∃ why, Grant.name host = .error why ∧ Grant.address host = none ∧
      read_request (m ++ rest) = socks_refused .failure why := by
  unfold socks_client_request at h
  split at h
  · cases h
  next hport =>
  have hport₁ : 1 ≤ port.toNat := by omega
  have hport₂ : port.toNat ≤ 65535 := by omega
  -- an address of any form, read as the host it is
  have hdone : ∀ {address canonical : Bytes} {kind : Kind}, Address address canonical kind →
      m = 5 :: 1 :: 0 :: (address ++ port_bytes port.toNat) →
      read_request (m ++ rest) =
        { status := .done, consumed := m.length, host := some canonical, kind := some kind
          port := some port.toNat } := by
    rintro address canonical kind ha rfl
    have hread := read_request_message (.mk ha hport₁ hport₂) rest
    rw [hread.1, ← hread.2]
  split at h
  · next four hfour =>
    obtain ⟨hlen, rfl⟩ := octets_iff.mp hfour
    refine .inl ⟨.ipv4, _, _, .ipv4 hlen, ?_, hdone (.ipv4 hlen) ?_⟩
    · intro b hb
      rw [← some.inj hb]
      exact (Grant.address_of_no_colon (Grant.not_mem_dotted (by decide) (by decide))).mpr ⟨hlen, rfl⟩
    · rw [← ok.inj h]
      rfl
  · next hfour =>
    split at h
    · next six hsix =>
      obtain ⟨hc, haddress⟩ := ipv6_bytes_ok_iff.mp hsix
      refine .inl ⟨.ipv6, _, _, .ipv6 six hc haddress, ?_, hdone (.ipv6 six) ?_⟩
      · intro b hb
        rw [← some.inj hb]
        exact Grant.address_ipv6_text six
      · rw [← ok.inj h]
        rfl
    · next why hsix =>
      split at h
      · cases h
      next hne =>
      split at h
      · cases h
      next hlong =>
      have hshort : Short host := ⟨length_pos_of_ne_nil hne, Nat.le_of_not_lt hlong⟩
      have hm : m = 5 :: 1 :: 0 :: (3 :: length_byte host :: host ++ port_bytes port.toNat) := by
        rw [← ok.inj h]
        rfl
      cases hn : Grant.name host with
      | ok n =>
        refine .inl ⟨.name, n, none, .name hn, by rintro _ ⟨⟩, hdone (.name hshort hn) hm⟩
      | error why' =>
        refine .inr ⟨why', rfl, ?_, ?_⟩
        · -- an address would have gone as one
          cases ha : Grant.address host with
          | none => rfl
          | some bytes =>
            rcases Grant.address_length ha with ⟨hc, hlen⟩ | ⟨hc, hlen⟩
            · have hok := (@ipv6_bytes_ok_iff host ⟨bytes, hlen⟩).mpr ⟨hc, ha⟩
              rw [hsix] at hok
              cases hok
            · rw [octets_iff.mpr ((Grant.address_of_no_colon hc).mp ha)] at hfour
              cases hfour
        · have hhost := (@request_host_name 5 1 0 host hshort (port_bytes port.toNat ++ rest)).2 why' hn
          have hread := read_request_error (by simp) hhost
          rw [← hread, hm]
          simp

theorem client_auth_read {user password m : Bytes} (h : socks_client_auth user password = .ok m) (rest : Bytes) :
    read_auth (m ++ rest) =
      { status := .done, consumed := m.length, username := some user, password := some password } := by
  unfold socks_client_auth at h
  split at h
  · cases h
  next hu =>
  split at h
  · cases h
  next hp =>
  split at h
  · cases h
  next hulen =>
  split at h
  · cases h
  next hplen =>
  have hshort : Short user := ⟨length_pos_of_ne_nil hu, Nat.le_of_not_lt hulen⟩
  have hshort' : Short password := ⟨length_pos_of_ne_nil hp, Nat.le_of_not_lt hplen⟩
  have hread := read_auth_message (.mk hshort hshort') rest
  have hm : m = 1 :: length_byte user :: (user ++ length_byte password :: password) := by
    rw [← ok.inj h]
    simp [length_byte]
  rw [hm, hread.1, ← hread.2]

theorem SOCKS_REPLIES_code (which : SocksReply) : SOCKS_REPLIES which.code = some which := by
  cases which <;> decide

/-- SOCKS client and server agree, however what they send arrives and whatever follows it: a request
is done with as a whole, for the host that Grant judges it to be and the port, or it is refused for
the reason Grant refuses the name; a username and password are read as they are; and every answer,
with a bound address of any form, is read through its end with its reply. -/
theorem socks_agree :
    (∀ host port m, socks_client_request host port = .ok m → ∀ cs c rest, cs.flatten ++ c = m ++ rest →
      (∃ kind canonical bytes, Grant.Host (Grant.display kind.grant host) kind.grant canonical bytes ∧
          (∀ b ∈ bytes, Grant.address canonical = some b) ∧
          socks_request_reader.answer cs c =
            { status := .done, consumed := m.length, host := some canonical, kind := some kind
              port := some port.toNat }) ∨
      ∃ why, Grant.name host = .error why ∧ Grant.address host = none ∧
        socks_request_reader.answer cs c = socks_refused .failure why) ∧
    (∀ user password m, socks_client_auth user password = .ok m → ∀ cs c rest, cs.flatten ++ c = m ++ rest →
        socks_auth_reader.answer cs c =
          { status := .done, consumed := m.length, username := some user
            password := some password }) ∧
    (∀ which cs c rest, cs.flatten ++ c = socks_reply which ++ rest → socks_answer_reader.answer cs c =
        { status := .done, consumed := (socks_reply which).length, code := some which.code.toNat
          reply := some which }) ∧
    (∀ which p₁ p₂ bound, Bound bound → ∀ cs c rest,
      cs.flatten ++ c = 5 :: which.code :: 0 :: (bound ++ [p₁, p₂]) ++ rest → socks_answer_reader.answer cs c =
          { status := .done, consumed := 3 + bound.length + 2, code := some which.code.toNat
            reply := some which }) ∧
    (∀ password cs c rest, cs.flatten ++ c = socks_method_reply (method_of password) ++ rest →
      (socks_method_reader password).answer cs c =
        { status := .done, consumed := (socks_method_reply (method_of password)).length
          method := some (method_of password).toNat }) ∧
    ∀ ok cs c rest, cs.flatten ++ c = socks_auth_reply ok ++ rest → socks_auth_status_reader.answer cs c =
        { status := .done, consumed := (socks_auth_reply ok).length, accepted := some ok } := by
  -- an answer with any bound address
  have hanswer : ∀ which p₁ p₂ bound, Bound bound → ∀ cs c rest,
      cs.flatten ++ c = 5 :: which.code :: 0 :: (bound ++ [p₁, p₂]) ++ rest → socks_answer_reader.answer cs c =
          { status := .done, consumed := 3 + bound.length + 2, code := some which.code.toNat
            reply := some which } := by
    intro which p₁ p₂ bound hbound cs c rest hfed
    have hread := read_answer_message (.mk which.code p₁ p₂ hbound) rest
    rw [socks_answer_reader_reads.answers, hfed, hread.1, SOCKS_REPLIES_code,
      show 5 + bound.length = 3 + bound.length + 2 by omega]
  refine ⟨?_, ?_, ?_, hanswer, ?_, ?_⟩
  · intro host port m h cs c rest hfed
    rw [socks_request_reader_reads.answers, hfed]
    exact client_request_read h rest
  · intro user password m h cs c rest hfed
    rw [socks_auth_reader_reads.answers, hfed]
    exact client_auth_read h rest
  · intro which cs c rest hfed
    exact hanswer which 0 0 [1, 0, 0, 0, 0] (.ipv4 rfl) cs c rest hfed
  · intro password cs c rest hfed
    rw [(socks_method_reader_reads password).answers, hfed]
    exact (read_method_answer_message .mk rest).1
  · intro ok cs c rest hfed
    rw [socks_auth_status_reader_reads.answers, hfed]
    cases ok with
    | true => exact (read_auth_answer_message (.mk 0) rest).1
    | false => exact (read_auth_answer_message (.mk 1) rest).1

/-- A request for an IPv4-mapped address, in two pieces, with bytes after it. -/
theorem socks_agree_mapped : (∃ kind canonical bytes,
      Grant.Host (Grant.display kind.grant (lit "::FFFF:1.2.3.4")) kind.grant canonical bytes ∧
        (∀ b ∈ bytes, Grant.address canonical = some b) ∧
        socks_request_reader.answer [[5, 1, 0, 4, 0, 0, 0, 0, 0, 0], []]
            [0, 0, 0, 0, 255, 255, 1, 2, 3, 4, 1, 187, 22, 3] =
          { status := .done, consumed := 22, host := some canonical, kind := some kind
            port := some 443 }) ∨
    ∃ why, Grant.name (lit "::FFFF:1.2.3.4") = .error why ∧ Grant.address (lit "::FFFF:1.2.3.4") = none ∧
      socks_request_reader.answer [[5, 1, 0, 4, 0, 0, 0, 0, 0, 0], []]
          [0, 0, 0, 0, 255, 255, 1, 2, 3, 4, 1, 187, 22, 3] = socks_refused .failure why :=
  socks_agree.1 (lit "::FFFF:1.2.3.4") 443
    [5, 1, 0, 4, 0, 0, 0, 0, 0, 0, 0, 0, 0, 0, 255, 255, 1, 2, 3, 4, 1, 187] (by decide +kernel) _ _
    [22, 3] (by decide)

end Cosmic.Wire
