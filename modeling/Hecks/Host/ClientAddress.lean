import Mathlib
import Hecks.Lib.Segments

/-! Which address a request is counted under: the peer's, or what a trusted proxy says of it in the
forwarded header. -/

namespace Hecks.Host.ClientAddress

/-- An address by its bits, the first octet highest. -/
inductive IpAddr where
  | v4 (bits : BitVec 32)
  | v6 (bits : BitVec 128)
  deriving DecidableEq

namespace IpAddr

/-- `to_canonical`: an IPv4-mapped IPv6 address is its IPv4 form. -/
def toCanonical : IpAddr → IpAddr
  | v4 bits => v4 bits
  | v6 bits => if bits >>> 32 = 0xffff#128 then v4 (bits.setWidth 32) else v6 bits

def width : IpAddr → Nat
  | v4 _ => 32
  | v6 _ => 128

/-! The standard library's reader of an address. Each part gives what it read and the rest. -/

/-- `to_digit`, for a radix of at most 16. -/
def toDigit (radix : Nat) (c : Char) : Option Nat := (Text.hexDigit? c).filter (· < radix)

def readNumber (radix maxDigits : Nat) (allowZeroPrefix : Bool) (bound : Nat) (cs : List Char) :
    Option (Nat × List Char) :=
  let digits := cs.takeWhile fun c => (toDigit radix c).isSome
  let value := (digits.filterMap (toDigit radix)).foldl (fun n d => n * radix + d) 0
  if maxDigits < digits.length then none
  else if digits.length = 0 then none
  else if !allowZeroPrefix && cs.head? == some '0' && 1 < digits.length then none
  else if value ≤ bound then some (value, cs.drop digits.length)
  else none

def readGivenChar (target : Char) : List Char → Option (List Char)
  | [] => none
  | c :: cs => if c = target then some cs else none

/-- The separator stands before every part but the first. -/
def readSeparator {α : Type} (sep : Char) (first : Bool)
    (inner : List Char → Option (α × List Char)) (cs : List Char) : Option (α × List Char) :=
  if first then inner cs else (readGivenChar sep cs).bind inner

/-- No octet is written with a leading zero. -/
def readOctet (first : Bool) (cs : List Char) : Option (Nat × List Char) :=
  readSeparator '.' first (readNumber 10 3 false 255) cs

def readIpv4Addr (cs : List Char) : Option (List Nat × List Char) := do
  let (a, cs) ← readOctet true cs
  let (b, cs) ← readOctet false cs
  let (c, cs) ← readOctet false cs
  let (d, cs) ← readOctet false cs
  some ([a, b, c, d], cs)

/-- Up to `limit` groups of an IPv6 address, the last two perhaps written as an IPv4 address, which
the flag tells. -/
def readGroups : (limit : Nat) → (first : Bool) → List Char → List Nat × Bool × List Char
  | 0, _, cs => ([], false, cs)
  | left + 1, first, cs =>
      let embedded := if 0 < left then readSeparator ':' first readIpv4Addr cs else none
      match embedded with
      | some ([a, b, c, d], rest) => ([a * 256 + b, c * 256 + d], true, rest)
      | _ =>
          match readSeparator ':' first (readNumber 16 4 true 65535) cs with
          | none => ([], false, cs)
          | some (group, rest) =>
              let (groups, ipv4, rest) := readGroups left false rest
              (group :: groups, ipv4, rest)

def ofDigits (w size : Nat) (digits : List Nat) : BitVec w :=
  BitVec.ofNat w (digits.foldl (fun n d => n * size + d) 0)

def readIpv6Addr (cs : List Char) : Option (BitVec 128 × List Char) :=
  let (head, ipv4, rest) := readGroups 8 true cs
  if head.length = 8 then some (ofDigits 128 65536 head, rest)
  else if ipv4 then none
  else do
    let rest ← readGivenChar ':' rest
    let rest ← readGivenChar ':' rest
    let (tail, _, rest) := readGroups (8 - (head.length + 1)) true rest
    let zeros := List.replicate (8 - head.length - tail.length) 0
    some (ofDigits 128 65536 (head ++ zeros ++ tail), rest)

def readIpAddr (cs : List Char) : Option (IpAddr × List Char) :=
  match readIpv4Addr cs with
  | some (octets, rest) => some (v4 (ofDigits 32 256 octets), rest)
  | none => (readIpv6Addr cs).map fun (bits, rest) => (v6 bits, rest)

/-- `parse::<IpAddr>().ok()`: the whole text is read. -/
def parse (text : String) : Option IpAddr :=
  match readIpAddr text.toList with
  | some (ip, []) => some ip
  | _ => none

end IpAddr

/-- A network; its length never exceeds the width of its address. -/
structure IpNet where
  addr : IpAddr
  prefixLen : Nat
  fits : prefixLen ≤ addr.width

/-- `MAX << (width - prefix)`, and 0 for a network of length 0. -/
def mask (w prefixLen : Nat) : BitVec w :=
  if prefixLen = 0 then 0 else BitVec.allOnes w <<< (w - prefixLen)

def IpNet.contains (net : IpNet) (ip : IpAddr) : Bool :=
  match net.addr, ip.toCanonical with
  | .v4 addr, .v4 bits => addr &&& mask 32 net.prefixLen = bits &&& mask 32 net.prefixLen
  | .v6 addr, .v6 bits => addr &&& mask 128 net.prefixLen = bits &&& mask 128 net.prefixLen
  | _, _ => false

/-- Compares two byte strings without stopping at the first differing byte. -/
def constantTimeEq (a b : List UInt8) : Bool :=
  a.length = b.length && (a.zip b).foldl (fun diff (x, y) => diff ||| (x ^^^ y)) 0 == 0

structure ProxyAuth where
  secret : String

structure ProxyTrust where
  networks : List IpNet
  hops : Nat
  auth : Option ProxyAuth

namespace ProxyTrust

def secretMatches (trust : ProxyTrust) (presentedSecret : Option String) : Bool :=
  match trust.auth, presentedSecret with
  | some auth, some presented =>
      constantTimeEq auth.secret.toUTF8.toList presented.toUTF8.toList
  | _, _ => false

/-- One of the trusted networks has the address. -/
def inside (trust : ProxyTrust) (ip : IpAddr) : Bool := trust.networks.any (·.contains ip)

def trusts (trust : ProxyTrust) (peer : Option IpAddr) (presentedSecret : Option String) : Bool :=
  trust.secretMatches presentedSecret || peer.any trust.inside

/-- The entries of the forwarded header, in its order. -/
def entries (forwardedFor : Option String) : List String :=
  ((Text.segments ',' (forwardedFor.getD "")).map Text.trim).filter (· ≠ "")

/-- The first entry outside the trusted networks; an entry that is no address before it ends the
search. -/
def firstOutside (trust : ProxyTrust) : List String → Option IpAddr
  | [] => none
  | entry :: rest =>
      match IpAddr.parse entry with
      | none => none
      | some ip =>
          if trust.inside ip.toCanonical then trust.firstOutside rest else some ip.toCanonical

/-- `none` means the client address could not be determined safely, rather than guessed. The
forwarded header is read only from a trusted source. -/
def clientIp (trust : ProxyTrust) (peer : Option IpAddr) (forwardedFor : Option String)
    (presentedSecret : Option String) : Option IpAddr :=
  let peer := peer.map IpAddr.toCanonical
  if !trust.trusts peer presentedSecret then peer
  else if (entries forwardedFor).isEmpty then peer
  else trust.firstOutside ((entries forwardedFor).reverse.drop trust.hops)

variable (trust : ProxyTrust)

/-- The entry is an address outside the trusted networks. -/
def Outside (entry : String) : Prop :=
  ∃ ip, IpAddr.parse entry = some ip ∧ trust.inside ip.toCanonical = false

theorem entries_joined (more header : String) :
    entries (some (more ++ "," ++ header)) = entries (some more) ++ entries (some header) := by
  have comma : (more ++ "," ++ header).toList = more.toList ++ ',' :: header.toList := by
    rw [String.toList_append, String.toList_append, List.append_assoc]
    rfl
  simp only [entries, Option.getD_some, Text.segments, comma, Text.segmentsChars_joined,
    List.map_append, List.filter_append]

/-- The search ends at the first address outside the networks, whatever stands behind it. -/
theorem firstOutside_append {near : List String} (far : List String)
    (h : ∃ entry ∈ near, trust.Outside entry) :
    trust.firstOutside (near ++ far) = trust.firstOutside near := by
  induction near with
  | nil =>
    obtain ⟨entry, mem, -⟩ := h
    exact absurd mem List.not_mem_nil
  | cons first rest ih =>
    rw [List.cons_append, firstOutside, firstOutside]
    cases read : IpAddr.parse first with
    | none => rfl
    | some ip =>
      dsimp only
      by_cases trusted : trust.inside ip.toCanonical = true
      · rw [if_pos trusted, if_pos trusted]
        apply ih
        obtain ⟨entry, mem, ip', found, no⟩ := h
        cases mem with
        | head =>
          rw [read] at found
          cases found
          rw [trusted] at no
          cases no
        | tail _ later => exact ⟨entry, later, ip', found, no⟩
      · rw [if_neg trusted, if_neg trusted]

variable (peer : Option IpAddr) (secret : Option String)

theorem clientIp_untrusted (forwardedFor : Option String)
    (h : trust.trusts (peer.map IpAddr.toCanonical) secret = false) :
    trust.clientIp peer forwardedFor secret = peer.map IpAddr.toCanonical := by
  simp only [clientIp, h, Bool.not_false, if_true]

/-- Entries put before a header whose own entries decide are never reached. -/
theorem clientIp_joined (more header : String)
    (h : trust.trusts (peer.map IpAddr.toCanonical) secret = true)
    (past : ∃ entry ∈ (entries (some header)).reverse.drop trust.hops, trust.Outside entry) :
    trust.clientIp peer (some (more ++ "," ++ header)) secret =
      trust.clientIp peer (some header) secret := by
  obtain ⟨entry, mem, outside⟩ := past
  have listed : entry ∈ entries (some header) :=
    List.mem_reverse.mp ((List.drop_sublist _ _).subset mem)
  have some' : (entries (some header)).isEmpty = false := by
    rw [List.isEmpty_eq_false_iff]
    exact List.ne_nil_of_mem listed
  have enough : trust.hops ≤ (entries (some header)).reverse.length := by
    by_contra short
    rw [List.drop_eq_nil_of_le (by omega)] at mem
    exact absurd mem List.not_mem_nil
  have both : (entries (some (more ++ "," ++ header))).isEmpty = false := by
    rw [entries_joined, List.isEmpty_eq_false_iff]
    exact List.append_ne_nil_of_right_ne_nil _ (List.isEmpty_eq_false_iff.mp some')
  simp only [clientIp, h, Bool.not_true, Bool.false_eq_true, if_false, both, some']
  rw [entries_joined, List.reverse_append, List.drop_append_of_le_length enough]
  exact trust.firstOutside_append _ ⟨entry, mem, outside⟩

/-- A caller cannot choose the address it is counted under: a peer that is not trusted is counted as
itself, in canonical form; and behind a trusted one, once an entry past the hops is an address outside
the networks, nothing put before the header changes the answer. -/
theorem client_ip_not_chosen :
    (trust.trusts (peer.map IpAddr.toCanonical) secret = false → ∀ forwardedFor,
      trust.clientIp peer forwardedFor secret = peer.map IpAddr.toCanonical) ∧
    (trust.trusts (peer.map IpAddr.toCanonical) secret = true → ∀ header,
      (∃ entry ∈ (entries (some header)).reverse.drop trust.hops, trust.Outside entry) → ∀ more,
        trust.clientIp peer (some (more ++ "," ++ header)) secret =
          trust.clientIp peer (some header) secret) :=
  ⟨fun h forwardedFor => trust.clientIp_untrusted peer secret forwardedFor h,
    fun h header past more => trust.clientIp_joined peer secret more header h past⟩

/-- A proxy of the network 10.0.0.0/8 whose header names 203.0.113.9. -/
theorem spoofed_entry_ignored :
    let trust : ProxyTrust := ⟨[⟨.v4 0x0a000000, 8, by decide⟩], 0, none⟩
    trust.clientIp (some (.v4 0x0a000001)) (some ("1.1.1.1" ++ "," ++ "203.0.113.9")) none =
      trust.clientIp (some (.v4 0x0a000001)) (some "203.0.113.9") none :=
  (client_ip_not_chosen _ _ _).2 (by decide) "203.0.113.9"
    ⟨"203.0.113.9", by decide, .v4 0xcb007109, by decide, by decide⟩ "1.1.1.1"

end ProxyTrust

end Hecks.Host.ClientAddress
