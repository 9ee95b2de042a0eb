/-
Grant's canonical forms, and the CONNECT authorities that are read as they are.
-/
import Cosmic.Relay.GrantParse

set_option autoImplicit false

namespace Cosmic.Wire

open Cosmic.Base List

/-! ## Hosts -/

theorem octets_iff {text bytes : Bytes} :
    octets text = some bytes ↔ bytes.length = 4 ∧ text = Grant.dotted bytes := by
  unfold octets
  constructor
  · intro h
    split at h
    · next b hb =>
      split at h
      · next hlen =>
        rw [Option.some_inj] at h
        rw [h] at hb hlen
        -- an address with a colon has sixteen bytes
        rcases Grant.address_length hb with ⟨-, hsixteen⟩ | ⟨hc, -⟩
        · omega
        · exact (Grant.address_of_no_colon hc).mp hb
      · cases h
    · cases h
  · rintro ⟨hlen, rfl⟩
    have hc : 58 ∉ Grant.dotted bytes := Grant.not_mem_dotted (by decide) (by decide)
    rw [(Grant.address_of_no_colon hc).mpr ⟨hlen, rfl⟩]
    exact if_pos hlen

theorem octets_of_name {text n : Bytes} (h : Grant.name text = .ok n) : octets text = none := by
  unfold octets
  rw [Grant.address_of_name h]

theorem ipv6_bytes_ok_iff {text : Bytes} {bytes : Grant.Sixteen} :
    ipv6_bytes text = .ok bytes ↔ 58 ∈ text ∧ Grant.address text = some bytes.1 := by
  unfold ipv6_bytes
  dsimp only
  by_cases hc : 58 ∈ text
  · rw [if_pos hc]
    constructor
    · intro h
      split at h
      · cases h
      next b hb =>
      split at h
      · next hlen =>
        rw [hb, ← Except.ok.inj h]
        exact ⟨hc, rfl⟩
      · cases h
    · rintro ⟨-, h⟩
      rw [h]
      exact dif_pos bytes.2
  · rw [if_neg hc]
    constructor
    · intro h
      cases h
    · rintro ⟨h, -⟩
      exact absurd h hc

theorem ipv6_of_address {text : Bytes} {bytes : Grant.Sixteen} (hc : 58 ∈ text)
    (h : Grant.address text = some bytes.1) : ipv6 text = .ok (Grant.ipv6_text bytes) := by
  unfold ipv6
  rw [ipv6_bytes_ok_iff.mpr ⟨hc, h⟩]
  rfl

theorem mem_of_address {text bytes : Bytes} (hc : 58 ∈ text) (h : Grant.address text = some bytes)
    {b : UInt8} (hb : b ∈ text) : isHex b = true ∨ b = 58 ∨ b = 46 := by
  unfold Grant.address at h
  split at h
  · cases h
  unfold Grant.parse6 at h
  split at h
  · cases h
  next hchars =>
  have hall := (not_or.mp hchars).1
  rw [any_eq_true, not_exists] at hall
  by_contra hno
  apply hall b
  refine ⟨hb, ?_⟩
  simp only [not_or] at hno
  simp [hno.1, hno.2.1, hno.2.2]

theorem not_mem_of_address {text bytes : Bytes} (hc : 58 ∈ text)
    (h : Grant.address text = some bytes) {b : UInt8} (hhex : isHex b = false) (h₁ : b ≠ 58)
    (h₂ : b ≠ 46) : b ∉ text := by
  intro hb
  rcases mem_of_address hc h hb with hb | hb | hb
  · rw [hhex] at hb
    cases hb
  · exact h₁ hb
  · exact h₂ hb

/-! ## Authorities -/

theorem index_of_here {c : UInt8} {w s : Bytes} (h : c ∉ w) : index_of [c] (w ++ c :: s) = some w.length := by
  rw [index_of_append h, index_of, if_pos (by simp)]
  exact congrArg some (Nat.zero_add _)

theorem authority_host_bare {host rest n : Bytes} {kind : Kind} (hopen : host.head? ≠ some 91)
    (hne : host ≠ []) (hc : 58 ∉ host) (hrest : 58 ∉ rest) (h : bare_host host = .ok (n, kind)) :
    authority_host (host ++ lit ":" ++ rest) = .ok (n, kind, rest) := by
  have htext : host ++ lit ":" ++ rest = host ++ 58 :: rest := by
    rw [append_assoc]
    rfl
  have hhead : (host ++ 58 :: rest).head? = host.head? := by
    rw [head?_append_of_ne_nil _ hne]
  have hindex : index_of (lit ":") (host ++ 58 :: rest) = some host.length := index_of_here hc
  have hdrop : (host ++ 58 :: rest).drop (host.length + 1) = rest := by
    rw [← drop_drop, drop_left]
    rfl
  unfold authority_host
  rw [htext, hhead, if_neg hopen, hindex]
  dsimp only
  rw [hdrop, if_neg hrest, take_left, h]

theorem authority_host_brackets {inner rest : Bytes} {bytes : Grant.Sixteen} (hc : 58 ∈ inner)
    (h : Grant.address inner = some bytes.1) :
    authority_host (lit "[" ++ inner ++ lit "]" ++ lit ":" ++ rest) = .ok (Grant.ipv6_text bytes, .ipv6, rest) := by
  have htext : lit "[" ++ inner ++ lit "]" ++ lit ":" ++ rest = (91 :: inner) ++ 93 :: 58 :: rest := by
    simp [lit]
  have hclose : 93 ∉ 91 :: inner := by
    intro hmem
    rcases mem_cons.mp hmem with hmem | hmem
    · cases hmem
    · exact not_mem_of_address hc h (by decide) (by decide) (by decide) hmem
  have hindex : index_of (lit "]") ((91 :: inner) ++ 93 :: 58 :: rest) =
      some (91 :: inner).length := index_of_here hclose
  have hdrop : ((91 :: inner) ++ 93 :: 58 :: rest).drop ((91 :: inner).length + 1) = 58 :: rest := by
    rw [← drop_drop, drop_left]
    rfl
  unfold authority_host
  rw [htext, if_pos (show (91 :: inner ++ 93 :: 58 :: rest).head? = some 91 from rfl), hindex]
  dsimp only
  rw [take_left, drop_one, tail_cons, ipv6_of_address hc h, hdrop]
  rfl

theorem no_mem_tostring {n : ℕ} {b : UInt8} (h : isDigit b = false) : b ∉ tostring n := by
  intro hb
  rw [isDigit_of_mem_tostring hb] at h
  cases h

theorem authority_of_host {host canonical : Bytes} {kind : Grant.Kind} {bytes : Option Bytes}
    (h : Grant.Host host kind canonical bytes) (hany : kind ≠ .any) {port : ℕ} (h₁ : 1 ≤ port)
    (h₂ : port ≤ 65535) :
    ∃ a, authority (host ++ lit ":" ++ tostring port) = .ok a ∧ a.host = canonical ∧
      a.kind.grant = kind ∧ a.port = port := by
  have hport : Grant.port (tostring port) = .ok port := Grant.port_ok_iff.mpr ⟨h₁, h₂, rfl⟩
  have hcolon : 58 ∉ tostring port := no_mem_tostring (by decide)
  have huser : 64 ∉ host → ¬64 ∈ host ++ lit ":" ++ tostring port := by
    intro hhost hmem
    rcases mem_append.mp hmem with hmem | hmem
    · rcases mem_append.mp hmem with hmem | hmem
      · exact hhost hmem
      · exact absurd hmem (by decide)
    · exact no_mem_tostring (by decide) hmem
  -- the host is read, and the port after it
  have hread : ∀ {k : Kind}, 64 ∉ host →
      authority_host (host ++ lit ":" ++ tostring port) = .ok (canonical, k, tostring port) →
      authority (host ++ lit ":" ++ tostring port) = .ok ⟨canonical, k, port⟩ := by
    intro k hhost hok
    unfold authority
    rw [if_neg (huser hhost), hok]
    dsimp only
    rw [hport]
    rfl
  cases h with
  | any => exact absurd rfl hany
  | name hname =>
    have hno : ∀ {b : UInt8}, Grant.isPlain b = false → isUpper b = false → b ≠ 45 → b ≠ 46 →
        b ∉ host := fun hp hu h₁ h₂ => Grant.not_mem_of_name hname hp hu h₁ h₂
    have hopen : 91 ∉ host := hno (by decide) (by decide) (by decide) (by decide)
    have hbare : bare_host host = .ok (canonical, .name) := by
      unfold bare_host
      rw [octets_of_name hname, hname]
      rfl
    have hne : host ≠ [] := (Grant.Host.name hname).ne_nil
    exact ⟨_, hread (hno (by decide) (by decide) (by decide) (by decide))
      (authority_host_bare (fun hh => hopen (mem_of_head? hh)) hne
        (hno (by decide) (by decide) (by decide) (by decide)) hcolon hbare), rfl, rfl, rfl⟩
  | ipv4 hlen =>
    rename_i four
    have hno : ∀ {b : UInt8}, isDigit b = false → b ≠ 46 → b ∉ Grant.dotted four :=
      fun hd hb => Grant.not_mem_dotted hd hb
    have hbare : bare_host (Grant.dotted four) = .ok (Grant.dotted four, .ipv4) := by
      unfold bare_host
      rw [octets_iff.mpr ⟨hlen, rfl⟩]
      rfl
    exact ⟨_, hread (hno (by decide) (by decide))
      (authority_host_bare (fun hh => hno (by decide) (by decide) (mem_of_head? hh))
        (Grant.Host.ipv4 hlen).ne_nil (hno (by decide) (by decide)) hcolon hbare), rfl, rfl, rfl⟩
  | ipv6 bytes hc haddr =>
    rename_i inner
    have hhost : 64 ∉ lit "[" ++ inner ++ lit "]" := by
      intro hmem
      rcases mem_append.mp hmem with hmem | hmem
      · rcases mem_append.mp hmem with hmem | hmem
        · exact absurd hmem (by decide)
        · exact not_mem_of_address hc haddr (by decide) (by decide) (by decide) hmem
      · exact absurd hmem (by decide)
    exact ⟨_, hread hhost (authority_host_brackets hc haddr), rfl, rfl, rfl⟩

/-- Canonical forms are canonical: an IPv6 address written is RFC 5952's text of it and is read back
as itself; a target's text is read as the target; targets have one text exactly where they are one
kind of host, the same address or name and the same port; a name read again is itself; and a host
that a target names, with a port, is an authority for the same host. -/
theorem canonical_forms : (∀ b : Grant.Sixteen, Grant.address (Grant.ipv6_text b) = some b.1 ∧
      Grant.Rfc5952 (Grant.words b.1) (Grant.ipv6_text b)) ∧
    (∀ x t, Grant.parse x = .ok t → Grant.parse t.text = .ok t) ∧
    (∀ x₁ x₂ t₁ t₂, Grant.parse x₁ = .ok t₁ → Grant.parse x₂ = .ok t₂ →
      (t₁.text = t₂.text ↔ t₁.kind = t₂.kind ∧ t₁.bytes = t₂.bytes ∧
        (t₁.kind = .name → lower (Grant.undotted (Grant.host_of x₁)) =
          lower (Grant.undotted (Grant.host_of x₂))) ∧ t₁.port = t₂.port)) ∧
    (∀ text n, Grant.name text = .ok n → Grant.name n = .ok n) ∧
    ∀ x t, Grant.parse x = .ok t → t.kind ≠ .any → ∀ port, 1 ≤ port → port ≤ 65535 →
      ∃ a, authority (Grant.host_of x ++ lit ":" ++ tostring port) = .ok a ∧ a.host = t.host ∧
        a.kind.grant = t.kind ∧ a.port = port := by
  refine ⟨fun b => ⟨Grant.address_ipv6_text b, ?_⟩, fun x t => Grant.parse_text,
    fun x₁ x₂ t₁ t₂ h₁ h₂ => Grant.text_eq_iff h₁ h₂, fun text n => Grant.name_idempotent, ?_⟩
  · exact Grant.groups_text_rfc5952 (Grant.words_length b.2)
  · intro x t h hany port h₁ h₂
    exact authority_of_host (Grant.parse_host_of h) hany h₁ h₂

/-- An IPv4-mapped address in capitals, and a name with a dot at its end and another case. -/
theorem canonical_forms_spelled :
    (∃ a, authority (Grant.host_of (lit "[::FFFF:1.2.3.4]:443") ++ lit ":" ++ tostring 8080) = .ok a ∧
      a.host = lit "::ffff:102:304" ∧ a.kind.grant = .ipv6 ∧ a.port = 8080) ∧
    (lit "example.com:443" = lit "example.com:443" ↔ Grant.Kind.name = .name ∧ (none : Option Bytes) = none ∧
        (Grant.Kind.name = .name → lower (Grant.undotted (Grant.host_of (lit "Example.COM.:443"))) =
          lower (Grant.undotted (Grant.host_of (lit "example.com:443")))) ∧ 443 = 443) :=
  ⟨canonical_forms.2.2.2.2 (lit "[::FFFF:1.2.3.4]:443")
      ⟨.ipv6, lit "::ffff:102:304", some [0, 0, 0, 0, 0, 0, 0, 0, 0, 0, 255, 255, 1, 2, 3, 4], 443,
        lit "[::ffff:102:304]:443"⟩ (by decide +kernel) (by decide) 8080 (by decide) (by decide),
    canonical_forms.2.2.1 (lit "Example.COM.:443") (lit "example.com:443")
      ⟨.name, lit "example.com", none, 443, lit "example.com:443"⟩
      ⟨.name, lit "example.com", none, 443, lit "example.com:443"⟩ (by decide +kernel)
      (by decide +kernel)⟩

end Cosmic.Wire
