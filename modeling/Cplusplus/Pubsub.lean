import Mathlib.Algebra.Ring.Nat
import Mathlib.Data.List.Perm.Basic

/-! The registry of `pubsub.c`. That a client is subscribed is stored on both sides, with the
client and with the server. A result of `none` is a failed assertion, a NULL dereference, the
use of a freed client or the overflow of an int. -/

namespace Cplusplus.Redis

open Function (update)

abbrev PubsubName := List UInt8

instance : LawfulBEq PubsubName := inferInstanceAs (LawfulBEq (List UInt8))

/-- `pubsubChannels` are the keys of a table, `pubsubPatterns` is a list; `pubsub` is the flag
REDIS_PUBSUB. -/
structure PubsubClient where
  pubsubChannels : List PubsubName
  pubsubPatterns : List PubsubName
  pubsub : Bool

inductive PubsubReply where
  | subscribe (channel : PubsubName) (count : Int)
  | unsubscribe (channel : Option PubsubName) (count : Nat)
  | psubscribe (pattern : PubsubName) (count : Int)
  | punsubscribe (pattern : Option PubsubName) (count : Nat)
  | message (channel : PubsubName) (message : List UInt8)
  | pmessage (pattern channel : PubsubName) (message : List UInt8)
  | integer (value : Int)
deriving DecidableEq

/-- A client is the address of its structure. `replies` is everything that was added to the
output of the clients, in order. -/
structure PubsubServer where
  clients : Nat → Option PubsubClient
  pubsubChannels : PubsubName → Option (List Nat)
  pubsubPatterns : List (Nat × PubsubName)
  replies : List (Nat × PubsubReply)

structure DictOrder where
  keys : List PubsubName → List PubsubName
  perm : ∀ names, (keys names).Perm names

namespace PubsubServer

def addReply (s : PubsubServer) (c : Nat) (reply : PubsubReply) : PubsubServer :=
  { s with replies := s.replies ++ [(c, reply)] }

def setClient (s : PubsubServer) (c : Nat) (client : PubsubClient) : PubsubServer :=
  { s with clients := update s.clients c (some client) }

end PubsubServer

def PubsubClient.subscriptions (client : PubsubClient) : Nat :=
  client.pubsubChannels.length + client.pubsubPatterns.length

/-- The sum is returned as an int. -/
def clientSubscriptionsCount (client : PubsubClient) : Int := (BitVec.ofNat 32 client.subscriptions).toInt

def pubsubSubscribeChannel (s : PubsubServer) (c : Nat) (channel : PubsubName) : Option (PubsubServer × Bool) := do
  let client ← s.clients c
  if channel ∈ client.pubsubChannels then
    return (s.addReply c (.subscribe channel (clientSubscriptionsCount client)), false)
  let client := { client with pubsubChannels := channel :: client.pubsubChannels }
  let clients := (s.pubsubChannels channel).getD [] ++ [c]
  let s := { s.setClient c client with pubsubChannels := update s.pubsubChannels channel (some clients) }
  return (s.addReply c (.subscribe channel (clientSubscriptionsCount client)), true)

def pubsubUnsubscribeChannel (s : PubsubServer) (c : Nat) (channel : PubsubName) (notify : Bool) :
    Option (PubsubServer × Bool) := do
  let client ← s.clients c
  if channel ∈ client.pubsubChannels then
    let client := { client with pubsubChannels := client.pubsubChannels.erase channel }
    let clients ← s.pubsubChannels channel
    if c ∉ clients then none
    let left := clients.erase c
    let s := { s.setClient c client with
      pubsubChannels := update s.pubsubChannels channel (if left.length = 0 then none else some left) }
    return (if notify then s.addReply c (.unsubscribe (some channel) client.subscriptions) else s, true)
  return (if notify then s.addReply c (.unsubscribe (some channel) client.subscriptions) else s, false)

def pubsubSubscribePattern (s : PubsubServer) (c : Nat) (pattern : PubsubName) : Option (PubsubServer × Bool) := do
  let client ← s.clients c
  if pattern ∈ client.pubsubPatterns then
    return (s.addReply c (.psubscribe pattern (clientSubscriptionsCount client)), false)
  let client := { client with pubsubPatterns := client.pubsubPatterns ++ [pattern] }
  let s := { s.setClient c client with pubsubPatterns := s.pubsubPatterns ++ [(c, pattern)] }
  return (s.addReply c (.psubscribe pattern (clientSubscriptionsCount client)), true)

def pubsubUnsubscribePattern (s : PubsubServer) (c : Nat) (pattern : PubsubName) (notify : Bool) :
    Option (PubsubServer × Bool) := do
  let client ← s.clients c
  if pattern ∈ client.pubsubPatterns then
    let client := { client with pubsubPatterns := client.pubsubPatterns.erase pattern }
    if (c, pattern) ∉ s.pubsubPatterns then none
    let s := { s.setClient c client with pubsubPatterns := s.pubsubPatterns.erase (c, pattern) }
    return (if notify then s.addReply c (.punsubscribe (some pattern) client.subscriptions) else s, true)
  return (if notify then s.addReply c (.punsubscribe (some pattern) client.subscriptions) else s, false)

def forEachName (call : PubsubServer → PubsubName → Option (PubsubServer × Bool)) :
    List PubsubName → PubsubServer → Nat → Option (PubsubServer × Nat)
  | [], s, count => some (s, count)
  | name :: names, s, count => do
    let (s, retval) ← call s name
    forEachName call names s (count + retval.toNat)

def pubsubUnsubscribeAllChannels (order : DictOrder) (s : PubsubServer) (c : Nat) (notify : Bool) :
    Option (PubsubServer × Nat) := do
  let client ← s.clients c
  let (s, count) ← forEachName (fun s channel => pubsubUnsubscribeChannel s c channel notify)
    (order.keys client.pubsubChannels) s 0
  let client ← s.clients c
  return (if notify && count == 0 then s.addReply c (.unsubscribe none client.subscriptions) else s, count)

def pubsubUnsubscribeAllPatterns (s : PubsubServer) (c : Nat) (notify : Bool) : Option (PubsubServer × Nat) := do
  let client ← s.clients c
  let (s, count) ← forEachName (fun s pattern => pubsubUnsubscribePattern s c pattern notify) client.pubsubPatterns s 0
  let client ← s.clients c
  return (if notify && count == 0 then s.addReply c (.punsubscribe none client.subscriptions) else s, count)

/-- The messages in the order in which they are added: to the clients of the channel, then to
those of the patterns that match. -/
def deliveries (stringmatchlen : PubsubName → PubsubName → Bool) (s : PubsubServer) (channel : PubsubName)
    (message : List UInt8) : List (Nat × PubsubReply) :=
  ((s.pubsubChannels channel).getD []).map (fun c => (c, .message channel message)) ++
    (s.pubsubPatterns.filter fun pat => stringmatchlen pat.2 channel).map fun pat =>
      (pat.1, .pmessage pat.2 channel message)

/-- `receivers` is an int. -/
def pubsubPublishMessage (stringmatchlen : PubsubName → PubsubName → Bool) (s : PubsubServer) (channel : PubsubName)
    (message : List UInt8) : Option (PubsubServer × Nat) :=
  let messages := deliveries stringmatchlen s channel message
  if messages.length < 2 ^ 31 ∧ (messages.all fun delivery => (s.clients delivery.1).isSome) = true then
    some ({ s with replies := s.replies ++ messages }, messages.length)
  else none

def setPubsubFlag (s : PubsubServer) (c : Nat) : Option PubsubServer := do
  let client ← s.clients c
  return s.setClient c { client with pubsub := true }

/-- `if (clientSubscriptionsCount(c) == 0) c->flags &= ~REDIS_PUBSUB;` -/
def clearPubsubFlag (s : PubsubServer) (c : Nat) : Option PubsubServer := do
  let client ← s.clients c
  return if clientSubscriptionsCount client = 0 then s.setClient c { client with pubsub := false } else s

def subscribeCommand (s : PubsubServer) (c : Nat) (channels : List PubsubName) : Option PubsubServer := do
  let (s, _) ← forEachName (fun s channel => pubsubSubscribeChannel s c channel) channels s 0
  setPubsubFlag s c

def unsubscribeCommand (order : DictOrder) (s : PubsubServer) (c : Nat) (channels : List PubsubName) : Option PubsubServer := do
  let (s, _) ←
    if channels.length = 0 then pubsubUnsubscribeAllChannels order s c true
    else forEachName (fun s channel => pubsubUnsubscribeChannel s c channel true) channels s 0
  clearPubsubFlag s c

def psubscribeCommand (s : PubsubServer) (c : Nat) (patterns : List PubsubName) : Option PubsubServer := do
  let (s, _) ← forEachName (fun s pattern => pubsubSubscribePattern s c pattern) patterns s 0
  setPubsubFlag s c

def punsubscribeCommand (s : PubsubServer) (c : Nat) (patterns : List PubsubName) : Option PubsubServer := do
  let (s, _) ←
    if patterns.length = 0 then pubsubUnsubscribeAllPatterns s c true
    else forEachName (fun s pattern => pubsubUnsubscribePattern s c pattern true) patterns s 0
  clearPubsubFlag s c

def publishCommand (stringmatchlen : PubsubName → PubsubName → Bool) (s : PubsubServer) (c : Nat) (channel : PubsubName)
    (message : List UInt8) : Option PubsubServer := do
  let (s, receivers) ← pubsubPublishMessage stringmatchlen s channel message
  return s.addReply c (.integer receivers)

def PubsubServer.createClient (s : PubsubServer) (c : Nat) : PubsubServer :=
  s.setClient c { pubsubChannels := [], pubsubPatterns := [], pubsub := false }

def PubsubServer.freeClient (order : DictOrder) (s : PubsubServer) (c : Nat) : Option PubsubServer := do
  let (s, _) ← pubsubUnsubscribeAllChannels order s c false
  let (s, _) ← pubsubUnsubscribeAllPatterns s c false
  return { s with clients := update s.clients c none }

end Cplusplus.Redis
