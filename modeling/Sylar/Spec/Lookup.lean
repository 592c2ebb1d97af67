import Sylar.Lib.Text

/-!
# `Sylar.Spec.Lookup`: the arguments of `getaddrinfo`

`Address::Lookup` takes a host such as `example.org:80` or `[::1]:80` apart. The source keeps
`service` as a pointer into the host. Here it is an index. `getaddrinfo` is a parameter: what it is
called with is `lookupCall`, and `service` is then the C string that starts at the index.

`Asks` says which node and service a host stands for.
-/

set_option autoImplicit false

namespace Sylar

open Lib

/-- A call of `getaddrinfo`. The other fields of `hints` are zero. -/
structure GetaddrinfoCall where
  node : List UInt8
  service : Option (List UInt8)
  family : Int
  socktype : Int
  protocol : Int
  deriving DecidableEq, Repr

namespace Address

/-- The scan for an address in brackets: `node` and `service`. The byte behind the last one is
zero. -/
def lookupBracket (host : List UInt8) : List UInt8 × Option Nat :=
  if host.head? = some 91 then
    match memchr host 1 93 (host.length - 1) with
    | some endipv6 =>
      ((host.drop 1).take (endipv6 - 1),
        if host.getD (endipv6 + 1) 0 = 58 then some (endipv6 + 2) else none)
    | none => ([], none)
  else ([], none)

/-- The scan for a colon, when there is no node yet. -/
def lookupColon (host node : List UInt8) : List UInt8 × Option Nat :=
  match memchr host 0 58 host.length with
  | none => (node, none)
  | some service =>
    match memchr host (service + 1) 58 (host.length - service - 1) with
    | none => (host.take service, some (service + 1))
    | some _ => (node, some service)

/-- What `Lookup(result, host, family, type, protocol)` calls `getaddrinfo` with. -/
def lookupCall (host : List UInt8) (family type protocol : Int) : GetaddrinfoCall :=
  let (node, service) := lookupBracket host
  let (node, service) := if node.isEmpty then lookupColon host node else (node, service)
  let node := if node.isEmpty then host else node
  ⟨cString node, service.map fun i => cString (host.drop i), family, type, protocol⟩

/-- `Lookup(result, host, family, type, protocol)`: the returned value, and `result`. `getaddrinfo`
gives its error, and the addresses. -/
def lookup {α β : Type} (getaddrinfo : GetaddrinfoCall → Int × List α) (create : α → β)
    (result : List β) (host : List UInt8) (family type protocol : Int) : Bool × List β :=
  let (error, results) := getaddrinfo (lookupCall host family type protocol)
  if error ≠ 0 then (false, result)
  else
    let result := result ++ results.map create
    (!result.isEmpty, result)

/-! ### What a host stands for -/

/-- The host is an address in brackets, with the text `t` behind them. -/
structure Bracketed (host x t : List UInt8) : Prop where
  eq : host = 91 :: (x ++ 93 :: t)
  nonempty : x ≠ []
  closed : 93 ∉ x

/-- The node and the service of a host. -/
inductive Asks : (host node : List UInt8) → (service : Option (List UInt8)) → Prop
  | bracket {host x : List UInt8} (h : Bracketed host x []) : Asks host x none
  | bracketService {host x s : List UInt8} (h : Bracketed host x (58 :: s)) : Asks host x (some s)
  | service {n s : List UInt8} (hne : n ≠ []) (hn : 58 ∉ n) (hs : 58 ∉ s)
      (hhead : n.head? ≠ some 91) : Asks (n ++ 58 :: s) n (some s)
  | noColon {host : List UInt8} (hcolon : 58 ∉ host) (h : ∀ x, ¬ Bracketed host x []) :
      Asks host host none
  | manyColons {host : List UInt8} (hhead : host.head? ≠ some 91) (hcolon : 2 ≤ host.count 58) :
      Asks host host none

/-- `Lookup` calls `getaddrinfo` with the node and the service that the host stands for. -/
def SplitsAsked (host : List UInt8) : Prop :=
  ∀ node service, Asks host node service → ∀ family type protocol,
    lookupCall host family type protocol = ⟨node, service, family, type, protocol⟩

/-- The host is not in brackets and has two or more colons. -/
def ManyColons (host : List UInt8) : Prop := host.head? ≠ some 91 ∧ 2 ≤ host.count 58

/-- The host has no colon, and text behind its brackets. -/
def BracketTail (host : List UInt8) : Prop := 58 ∉ host ∧ ∃ x t, Bracketed host x t ∧ t ≠ []

end Address

end Sylar
