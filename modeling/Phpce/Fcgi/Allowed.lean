import Phpce.Fcgi.Request

/-!
# `listen.allowed_clients`

The table that `fcgi_set_allowed_clients` makes of a list of addresses, and the check of
`fcgi_accept_request` against it. `inet_pton` is a parameter.

* **`fcgiIsAllowed_of_mem`** — an address in the table is allowed.
* **`fcgiIsAllowed_iff_isListed`** — when nobody else is: of a listed IPv6 address twelve bytes are
  compared, and whoever shares them is let in.
-/

namespace Phpce

namespace Fcgi

open Bytes

/-- `sa_t`. What matters of an address is its family and the bytes of `sin_addr`. -/
inductive SockAddr where
  | unix
  | inet (addr : Vector UInt8 4)
  | inet6 (addr : Vector UInt8 16)
  deriving DecidableEq, Repr

/-- `inet_pton`, which gives an address for a string that is one. -/
structure InetPton where
  inet : Bytes → Option (Vector UInt8 4)
  inet6 : Bytes → Option (Vector UInt8 16)

def parseClient (pton : InetPton) (cur : Bytes) : Option SockAddr :=
  match pton.inet cur with
  | some addr => some (.inet addr)
  | none => (pton.inet6 cur).map .inet6

/-- `fcgi_set_allowed_clients`, and the part of `fcgi_listen` for `FCGI_WEB_SERVER_ADDRS`. The table
of a list without an address is empty, and not null. -/
def fcgiSetAllowedClients (pton : InetPton) (allowedClients : Option (List SockAddr)) :
    Option Bytes → Option (List SockAddr)
  | some ip => some ((ip.splitOn 44).filterMap (parseClient pton))
  | none => allowedClients

/-- `IN6_IS_ADDR_V4MAPPED` -/
def isV4Mapped (addr : Vector UInt8 16) : Bool :=
  addr.toList.take 12 = [0, 0, 0, 0, 0, 0, 0, 0, 0, 0, 255, 255]

/-- A round of the loops of `fcgi_is_allowed`. Of an IPv6 address twelve bytes are compared. -/
def matchesClient : SockAddr → SockAddr → Bool
  | .inet client, .inet allowed => client = allowed
  | .inet6 client, .inet6 allowed => client.toList.take 12 = allowed.toList.take 12
  | .inet6 client, .inet allowed => isV4Mapped client && client.toList.drop 12 = allowed.toList
  | _, _ => false

/-- `fcgi_is_allowed` -/
def fcgiIsAllowed (allowedClients : Option (List SockAddr)) (client : SockAddr) : Bool :=
  if client = .unix then true
  else
    match allowedClients with
    | none => true
    | some table => table.any (matchesClient client)

variable {allowedClients : Option (List SockAddr)} {client : SockAddr}

theorem fcgiIsAllowed_some {table : List SockAddr} (h : client ≠ .unix) :
    fcgiIsAllowed (some table) client = true ↔ ∃ a ∈ table, matchesClient client a = true := by
  rw [fcgiIsAllowed, if_neg h, List.any_eq_true]

theorem matchesClient_self (h : client ≠ .unix) : matchesClient client client = true := by
  cases client with
  | unix => exact absurd rfl h
  | inet addr => exact decide_eq_true rfl
  | inet6 addr => exact decide_eq_true rfl

theorem fcgiIsAllowed_of_mem {table : List SockAddr} (h : client ∈ table) :
    fcgiIsAllowed (some table) client = true := by
  by_cases hunix : client = .unix
  · rw [fcgiIsAllowed, if_pos hunix]
  · exact (fcgiIsAllowed_some hunix).mpr ⟨client, h, matchesClient_self hunix⟩

/-! ## Neighbours -/

def IsListed (table : List SockAddr) (client : SockAddr) : Prop :=
  client ∈ table ∨ ∃ addr embedded, client = .inet6 addr ∧ isV4Mapped addr = true ∧
    addr.toList.drop 12 = embedded.toList ∧ .inet embedded ∈ table

/-- A listed IPv6 address that the client shares the first twelve bytes with. -/
def HasNeighbour (table : List SockAddr) (client : SockAddr) : Prop :=
  ∃ addr allowed, client = .inet6 addr ∧ .inet6 allowed ∈ table ∧
    addr.toList.take 12 = allowed.toList.take 12

theorem exists_matchesClient_iff {table : List SockAddr} (h : client ≠ .unix) :
    (∃ a ∈ table, matchesClient client a = true) ↔
      IsListed table client ∨ HasNeighbour table client := by
  constructor
  · rintro ⟨a, hmem, hmatch⟩
    cases client with
    | unix => exact absurd rfl h
    | inet addr =>
      cases a with
      | inet allowed =>
        obtain rfl : addr = allowed := of_decide_eq_true hmatch
        exact Or.inl (Or.inl hmem)
      | unix => cases hmatch
      | inet6 allowed => cases hmatch
    | inet6 addr =>
      cases a with
      | inet allowed =>
        obtain ⟨hmapped, hsame⟩ := Bool.and_eq_true_iff.mp hmatch
        exact Or.inl (Or.inr ⟨addr, allowed, rfl, hmapped, of_decide_eq_true hsame, hmem⟩)
      | unix => cases hmatch
      | inet6 allowed => exact Or.inr ⟨addr, allowed, rfl, hmem, of_decide_eq_true hmatch⟩
  · rintro ((hmem | ⟨addr, embedded, rfl, hmapped, hsame, hmem⟩) |
      ⟨addr, allowed, rfl, hmem, hsame⟩)
    · exact ⟨client, hmem, matchesClient_self h⟩
    · refine ⟨.inet embedded, hmem, ?_⟩
      rw [matchesClient, hmapped, Bool.true_and]
      exact decide_eq_true hsame
    · exact ⟨.inet6 allowed, hmem, decide_eq_true hsame⟩

/-- **Who is let in is who is listed**, exactly where a client that is not listed has no
neighbour. -/
theorem fcgiIsAllowed_iff_isListed (pton : InetPton) (allowedClients : Option (List SockAddr))
    (ip : Bytes) (client : SockAddr) (h : client ≠ .unix) :
    (fcgiIsAllowed (fcgiSetAllowedClients pton allowedClients (some ip)) client = true ↔
        IsListed ((ip.splitOn 44).filterMap (parseClient pton)) client) ↔
      (HasNeighbour ((ip.splitOn 44).filterMap (parseClient pton)) client →
        IsListed ((ip.splitOn 44).filterMap (parseClient pton)) client) := by
  rw [fcgiSetAllowedClients, fcgiIsAllowed_some h, exists_matchesClient_iff h]
  constructor
  · intro hiff hneighbour
    exact hiff.mp (Or.inr hneighbour)
  · intro hlisted
    exact ⟨fun hor => hor.elim id hlisted, Or.inl⟩

/-- `::1` is an address, and nothing else. -/
def loopbackPton : InetPton where
  inet _ := none
  inet6 cur := if cur = ascii "::1" then some (.ofFn fun i => if i = 15 then 1 else 0) else none

theorem fcgiIsAllowed_iff_isListed_loopback :
    SockAddr.inet #v[127, 0, 0, 1] ≠ .unix ∧
      (fcgiIsAllowed (fcgiSetAllowedClients loopbackPton none (some (ascii "::1")))
          (.inet #v[127, 0, 0, 1]) = true ↔
        IsListed (((ascii "::1").splitOn 44).filterMap (parseClient loopbackPton))
          (.inet #v[127, 0, 0, 1])) := by
  refine ⟨by decide, (fcgiIsAllowed_iff_isListed loopbackPton none _ _ (by decide)).mpr ?_⟩
  rintro ⟨addr, allowed, hclient, _⟩
  cases hclient

/-- **The neighbours of a listed address are let in.** -/
theorem not_fcgiIsAllowed_iff_isListed : ¬∀ (pton : InetPton)
    (allowedClients : Option (List SockAddr)) (ip : Bytes) (client : SockAddr), client ≠ .unix →
      (fcgiIsAllowed (fcgiSetAllowedClients pton allowedClients (some ip)) client = true ↔
        IsListed ((ip.splitOn 44).filterMap (parseClient pton)) client) := by
  intro h
  have hiff := h loopbackPton none (ascii "::1") (.inet6 (.ofFn fun i => if i = 15 then 2 else 0))
    (by decide)
  obtain hmem | ⟨addr, embedded, hclient, hmapped, _⟩ := hiff.mp (by decide)
  · revert hmem
    decide
  · obtain rfl := SockAddr.inet6.inj hclient
    revert hmapped
    decide

end Fcgi

end Phpce
