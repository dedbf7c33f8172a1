import Patchbay.Event
import Patchbay.Fault

/-!
# Emitters

An emitter tells its subscribers of events, in the order in which they subscribed. Those who are
subscribed when an event is emitted are told, even if one of them changes the subscriptions meanwhile.
A subscriber that fails is passed over.

Contents:
* `EmitterDeed`: an operation; `Subscriber`, `Subscriber.same`.
* `Delivery`: one subscriber told of one event.
* `Emitter`, `Emitter.deed`.
-/

namespace Patchbay

/-- An operation on an emitter. -/
inductive EmitterDeed where
  /-- a subscriber that carries out operations when it is told, and then fails or not -/
  | make (name : String) (follow : List EmitterDeed) (fails : Bool)
  /-- a subscriber with callbacks -/
  | makeObserver (name : String) (callbacks : List String)
  | subscribe (name : String)
  | unsubscribe (name : String)
  | clear
  | emit (e : Except Fault Event)

/-- Someone who may subscribe. -/
inductive Subscriber where
  | plain (id : Nat) (name : String) (follow : List EmitterDeed) (fails : Bool)
  | observer (id : Nat) (name : String) (callbacks : List ObserverCallback)

/-- Whether two subscribers are the same one. Observers without callbacks are all the same. -/
def Subscriber.same : Subscriber → Subscriber → Bool
  | plain a _ _ _, plain b _ _ _ => a == b
  | observer a _ cs, observer b _ ds => a == b || (cs.isEmpty && ds.isEmpty)
  | _, _ => false

/-- One subscriber told of one event. -/
inductive Delivery where
  | heard (name : String) (e : Event)
  | called (name : String) (callback : ObserverCallback) (arguments : List Value)

/-- Subscribers, and what they were told. -/
structure Emitter where
  /-- everyone known by name -/
  known : List (String × Subscriber) := []
  made : Nat := 0
  subscribers : List Subscriber := []
  /-- what was delivered, oldest first -/
  deliveries : List Delivery := []

namespace Emitter

/-- Makes a subscriber known by its name. -/
def introduce (m : Emitter) (name : String) (s : Subscriber) : Emitter :=
  { m with known := (name, s) :: m.known.filter fun e => e.1 != name, made := m.made + 1 }

/-- Adds a subscriber; adding one twice has no effect. -/
def subscribe (m : Emitter) (s : Subscriber) : Emitter :=
  if m.subscribers.any fun x => x.same s then m else { m with subscribers := m.subscribers ++ [s] }

/-- Removes the first subscriber that is the same as a given one. -/
def removeFirst (s : Subscriber) : List Subscriber → List Subscriber
  | [] => []
  | x :: xs => if x.same s then xs else x :: removeFirst s xs

/-- Removes a subscriber. -/
def unsubscribe (m : Emitter) (s : Subscriber) : Emitter :=
  { m with subscribers := removeFirst s m.subscribers }

/-- Carries out an operation; `tell` tells one subscriber of one event. -/
def deedWith (tell : Subscriber → Event → Emitter → Emitter) (m : Emitter) (d : EmitterDeed) :
    Except Fault Unit × Emitter :=
  match d with
  | .make name follow fails => (.ok (), m.introduce name (.plain m.made name follow fails))
  | .makeObserver name callbacks => match callbacks.mapM ObserverCallback.ofName? with
    | some cs => (.ok (), m.introduce name (.observer m.made name cs))
    | none => (.error .type, m)
  | .subscribe name => match m.known.lookup name with
    | some s => (.ok (), m.subscribe s)
    | none => (.error .key, m)
  | .unsubscribe name => match m.known.lookup name with
    | some s => (.ok (), m.unsubscribe s)
    | none => (.error .key, m)
  | .clear => (.ok (), { m with subscribers := [] })
  | .emit (.ok e) => (.ok (), m.subscribers.foldl (fun m s => tell s e m) m)
  | .emit (.error f) => (.error f, m)

/-- Carries out operations up to the first fault, which is dropped. -/
def deedsWith (tell : Subscriber → Event → Emitter → Emitter) (m : Emitter) :
    List EmitterDeed → Emitter
  | [] => m
  | d :: rest => match deedWith tell m d with
    | (.ok (), m) => deedsWith tell m rest
    | (.error _, m) => m

/-- Tells a subscriber of an event; it may emit events in turn, to a bounded depth. -/
def tell : Nat → Subscriber → Event → Emitter → Emitter
  | 0, _, _, m => m
  | n + 1, s, e, m => match s with
    | .plain _ name follow _ =>
      deedsWith (tell n) { m with deliveries := m.deliveries ++ [.heard name e] } follow
    | .observer _ name callbacks => match e.observed? with
      | some (c, arguments) =>
        if callbacks.contains c then
          { m with deliveries := m.deliveries ++ [.called name c arguments] }
        else m
      | none => m

/-- The deepest nesting of events. -/
def depthBound : Nat := 1000

/-- Carries out an operation. -/
def deed (m : Emitter) (d : EmitterDeed) : Except Fault Unit × Emitter := deedWith (tell depthBound) m d

end Emitter

end Patchbay
