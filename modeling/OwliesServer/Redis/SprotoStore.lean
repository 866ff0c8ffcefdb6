/-
Storing and loading sproto objects through the hiredis service, over a connection that stands.

The service's methods (Redis.Hiredis) run against a Redis server: every command they send is carried out on the store
and answered with the server's reply.
- GET answers with the string, with a nil reply for a missing key (`reply->str` is NULL) and with an error reply for a
  key of another type; the C binding pushes `reply->str` whatever the type of the reply.
- SET may be refused with an error reply; otherwise it stores the string and answers OK.
- sproto decodes what it has encoded and refuses less than a header's two bytes (`Codec`).

`load_never_round_trips`: no load returns what was stored as its second result behind `true`, and none returns a false
first result. A stored object comes back as the first result (the decoder's), and a missing key makes the load raise.
-/
import OwliesServer.Redis.Hiredis

namespace OwliesServer.SprotoStore

open OwliesServer.CChar OwliesServer.Machine OwliesServer.Hiredis

variable {T O : Type}

/-! ## Model -/

/-- a Redis key as the C binding takes it -/
structure Key where
  bytes : Bytes
  nul_free : 0#8 ∉ bytes
  space_free : 32#8 ∉ bytes

/-- what the server holds under a key -/
inductive Stored where
  | absent
  | string (value : Bytes)
  | otherType
deriving DecidableEq

abbrev Store := Bytes → Stored

def getReply : Stored → Reply
  | .absent => ⟨none⟩
  | .string value => ⟨some value⟩
  | .otherType => ⟨some (ascii "WRONGTYPE Operation against a key holding the wrong kind of value")⟩

/-- the text of an error reply -/
structure Refusal where
  text : Bytes
  not_ok : text ≠ ascii "OK"

def setReply : Option Refusal → Reply
  | none => ⟨some (ascii "OK")⟩
  | some refusal => ⟨some refusal.text⟩

/-- the server carries out a command, unless it refuses -/
def serve (refused : Option Refusal) (store : Store) : Command → Store
  | .set key value => if refused.isSome then store else Function.update store key (.string value)
  | .get _ => store
  | .ping => store

/-- sproto over a schema -/
structure Codec (T O : Type) extends Sproto T O where
  decode_encode : ∀ t o code, encode t o = some code → ∃ size, decode t code = some (o, size)
  decode_short : ∀ t code, code.length < 2 → decode t code = none

variable (cd : Codec T O)

/-- the connection stands: PING is answered, and so is the command -/
def standing (reply : Reply) : Env := ⟨some (ascii "PONG"), fun _ => .connected, some reply⟩

inductive Op (T O : Type) where
  | update (key : Key) (sprotoType : T) (sproto : O) (refused : Option Refusal)
  | load (key : Key) (sprotoType : T)

/-- the service, the store, and the object of the latest update of each key that returned true -/
structure World (T O : Type) where
  service : Service
  store : Store
  latest : Bytes → Option (T × O)

/-- the commands that a call has sent -/
def newCommands (before after : Service) : List Command := (after.commands.drop before.commands.length).map (·.command)

/-- `Methods.loadRedisSproto` -/
def load (w : World T O) (key : Key) (sprotoType : T) : Except Stop (Ret O × Ret O) × Service :=
  (loadRedisSproto cd.toSproto (standing (getReply (w.store key.bytes))) key.bytes sprotoType).run.run w.service

/-- `Methods.updateRedisSproto` -/
def update (w : World T O) (key : Key) (sprotoType : T) (sproto : O) (refused : Option Refusal) :
    Except Stop Bool × Service :=
  (updateRedisSproto cd.toSproto (standing (setReply refused)) key.bytes sprotoType sproto).run.run w.service

def step (w : World T O) : Op T O → World T O
  | .update key sprotoType sproto refused =>
    let (result, service) := update cd w key sprotoType sproto refused
    { service := service
      store := (newCommands w.service service).foldl (serve refused) w.store
      latest :=
        match result with
        | .ok true => Function.update w.latest key.bytes (some (sprotoType, sproto))
        | _ => w.latest }
  | .load key sprotoType =>
    let (_, service) := load cd w key sprotoType
    { w with
      service := service
      store := (newCommands w.service service).foldl (serve none) w.store }

/-- a service that holds a context -/
structure Connected where
  service : Service
  context : ℕ
  held : service.redisContext = some context

/-- a server without strings, some of whose keys hold values of another type -/
def start (svc : Connected) (others : Bytes → Bool) : World T O :=
  ⟨svc.service, fun key => if others key then .otherType else .absent, fun _ => none⟩

/-! ## The two methods over a standing connection -/

theorem run_updateRedisContext_standing {s : Service} {c : ℕ} (hc : s.redisContext = some c) (reply : Reply) :
    (updateRedisContext (standing reply)).run.run s = (.ok true, issue s c .ping) := run_updateRedisContext_pong hc rfl

theorem update_eq {w : World T O} {c : ℕ} (hc : w.service.redisContext = some c) (key : Key) (sprotoType : T)
    (sproto : O) (refused : Option Refusal) :
    update cd w key sprotoType sproto refused =
      match cd.encode sprotoType sproto with
      | none => (.error .error, issue w.service c .ping)
      | some code => (.ok refused.isNone, issue (issue w.service c .ping) c (.set key.bytes code)) := by
  rw [update, run_updateRedisSproto_true _ (run_updateRedisContext_standing hc _) (show _ = some c from hc), run_setSproto]
  cases hcode : cd.encode sprotoType sproto with
  | none => rfl
  | some code =>
    cases refused with
    | none => simp [standing, setReply]
    | some refusal => simp [standing, setReply, refusal.not_ok]

theorem load_eq {w : World T O} {c : ℕ} (hc : w.service.redisContext = some c) (key : Key) (sprotoType : T) :
    load cd w key sprotoType =
      (match cd.decode sprotoType ((getReply (w.store key.bytes)).str.getD []) with
        | none => .error .error
        | some (obj, size) => .ok (.obj obj, .int size),
        issue (issue w.service c .ping) c (.get key.bytes)) := by
  rw [load, run_loadRedisSproto_true _ (run_updateRedisContext_standing hc _) (show _ = some c from hc)]
  cases hd : cd.decode sprotoType ((getReply (w.store key.bytes)).str.getD []) <;> simp [standing, hd]

theorem newCommands_issue_issue (s : Service) (c : ℕ) (p q : Command) :
    newCommands s (issue (issue s c p) c q) = [p, q] := by
  simp [newCommands, issue]

theorem newCommands_issue (s : Service) (c : ℕ) (p : Command) : newCommands s (issue s c p) = [p] := by
  simp [newCommands, issue]

/-! ## Every run -/

/-- the service holds a context, and the strings on the server are the codes of the latest objects -/
structure Consistent (w : World T O) : Prop where
  held : ∃ c, w.service.redisContext = some c
  stored : ∀ key t o, w.latest key = some (t, o) → ∃ code, cd.encode t o = some code ∧ w.store key = .string code
  other : ∀ key, w.latest key = none → ∀ value, w.store key ≠ .string value

theorem consistent_start (svc : Connected) (others : Bytes → Bool) : Consistent cd (start svc others : World T O) where
  held := ⟨svc.context, svc.held⟩
  stored _ _ _ h := nomatch h
  other key _ value := by
    simp only [start]
    split_ifs <;> simp

theorem consistent_step (w : World T O) (o : Op T O) (h : Consistent cd w) : Consistent cd (step cd w o) := by
  obtain ⟨c, hc⟩ := h.held
  cases o with
  | load key sprotoType =>
    have hstore : (step cd w (.load key sprotoType)).store = w.store := by
      simp only [step, load_eq cd hc, newCommands_issue_issue]
      rfl
    refine ⟨⟨c, ?_⟩, ?_, ?_⟩
    · simp only [step, load_eq cd hc]
      exact hc
    · rw [hstore]
      exact h.stored
    · rw [hstore]
      exact h.other
  | update key sprotoType sproto refused =>
    cases hcode : cd.encode sprotoType sproto with
    | none =>
      -- the encoder raises before anything is sent
      have hstep : step cd w (.update key sprotoType sproto refused) =
          { w with service := issue w.service c .ping } := by
        simp only [step, update_eq cd hc, hcode, newCommands_issue]
        rfl
      rw [hstep]
      exact ⟨⟨c, hc⟩, h.stored, h.other⟩
    | some code =>
      cases refused with
      | some refusal =>
        have hstep : step cd w (.update key sprotoType sproto (some refusal)) =
            { w with service := issue (issue w.service c .ping) c (.set key.bytes code) } := by
          simp only [step, update_eq cd hc, hcode, newCommands_issue_issue]
          rfl
        rw [hstep]
        exact ⟨⟨c, hc⟩, h.stored, h.other⟩
      | none =>
        have hstep : step cd w (.update key sprotoType sproto none) =
            ⟨issue (issue w.service c .ping) c (.set key.bytes code),
              Function.update w.store key.bytes (.string code),
              Function.update w.latest key.bytes (some (sprotoType, sproto))⟩ := by
          simp only [step, update_eq cd hc, hcode, newCommands_issue_issue]
          rfl
        rw [hstep]
        refine ⟨⟨c, hc⟩, ?_, ?_⟩
        · intro k t o hk
          by_cases hkey : k = key.bytes
          · subst hkey
            simp only [Function.update_self, Option.some.injEq, Prod.mk.injEq] at hk
            obtain ⟨rfl, rfl⟩ := hk
            exact ⟨code, hcode, by simp⟩
          · simp only [Function.update_of_ne hkey] at hk ⊢
            exact h.stored k t o hk
        · intro k hk value
          by_cases hkey : k = key.bytes
          · subst hkey
            simp at hk
          · simp only [Function.update_of_ne hkey] at hk ⊢
            exact h.other k hk value

/-- the load returns true and the latest object, or a false first result where there is none -/
def RoundTrips (w : World T O) (key : Key) (sprotoType : T) : Prop :=
  match w.latest key.bytes with
  | some (_, obj) => (load cd w key sprotoType).1 = .ok (.bool true, .obj obj)
  | none => ∃ second, (load cd w key sprotoType).1 = .ok (.bool false, second) ∨
      (load cd w key sprotoType).1 = .ok (.nil, second)

/-- **No load round-trips.** After any sequence of updates and loads, a load raises or returns the decoder's two results.
The latest object of its key, of the type it asks for, is the first of them; a key that is absent makes it raise. -/
theorem load_never_round_trips (svc : Connected) (others : Bytes → Bool) (ops : List (Op T O)) (key : Key)
    (sprotoType : T) :
    ¬ RoundTrips cd (run (step cd) (start svc others) ops) key sprotoType ∧
    (∀ obj, (run (step cd) (start svc others) ops).latest key.bytes = some (sprotoType, obj) →
      ∃ size, (load cd (run (step cd) (start svc others) ops) key sprotoType).1 = .ok (.obj obj, .int size)) ∧
    ((run (step cd) (start svc others) ops).store key.bytes = .absent →
      (load cd (run (step cd) (start svc others) ops) key sprotoType).1 = .error .error) := by
  have hinv := run_inv (step cd) (Consistent cd) (consistent_step cd) _ ops (consistent_start cd svc others)
  generalize run (step cd) (start svc others) ops = w at hinv
  obtain ⟨c, hc⟩ := hinv.held
  have hload := congrArg Prod.fst (load_eq cd hc key sprotoType)
  refine ⟨?_, ?_, ?_⟩
  · intro hrt
    simp only [RoundTrips, hload] at hrt
    cases hd : cd.decode sprotoType ((getReply (w.store key.bytes)).str.getD []) <;>
      cases hl : w.latest key.bytes <;> simp [hd, hl] at hrt
  · intro obj hobj
    obtain ⟨code, hcode, hstore⟩ := hinv.stored key.bytes sprotoType obj hobj
    obtain ⟨size, hsize⟩ := cd.decode_encode sprotoType obj code hcode
    refine ⟨size, ?_⟩
    rw [hload, hstore]
    simp [getReply, hsize]
  · intro habsent
    rw [hload, habsent]
    simp [getReply, cd.decode_short sprotoType [] (by simp)]

/-- one empty message -/
def unitCodec : Codec Unit Unit where
  encode _ _ := some [0#8, 0#8]
  decode _ code := if 2 ≤ code.length then some ((), 2) else none
  decode_encode _ _ code h := by
    cases h
    exact ⟨2, rfl⟩
  decode_short _ code h := if_neg (by omega)

def oneContext : Connected := ⟨⟨1, [], some 0, [], [], false⟩, 0, rfl⟩

def keyK : Key := ⟨ascii "k", by decide, by decide⟩

/-- the stored object is the first result and the decoder's byte count the second; a key never stored raises -/
theorem stored_object_first_missing_raises :
    (load unitCodec (run (step unitCodec) (start oneContext fun _ => false) [.update keyK () () none]) keyK ()).1 =
      .ok (.obj (), .int 2) ∧
    (load unitCodec (start oneContext fun _ => false) keyK ()).1 = .error .error := by
  decide +kernel

end OwliesServer.SprotoStore
