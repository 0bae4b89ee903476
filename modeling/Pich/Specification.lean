import Pich.Backends
import Pich.Base.StreamCipher

namespace Pich
open Lanes Bytes Generator Runs

/-- The build on which the meaning of a passphrase is fixed: no assembly, no SHA extensions. -/
def plain : Platform := { asm := false, shaNi := false }

/-- What a build adds is an implementation: the step of the schedule is the same on every one of them. -/
theorem g_plain (platform : Platform) : g platform = g plain := by
  funext x rc
  simp only [g, Arch.rotl128_eq, Arch.mul128_eq, Arch.rotr128_eq]

theorem genSubKeys_plain (platform : Platform) : genSubKeys platform = genSubKeys plain := by
  funext ke
  simp only [genSubKeys, g_plain platform]

theorem sha256_plain (platform : Platform) : sha256 platform = sha256 plain := by
  funext data
  simp only [sha256, Arch.sha256Compress_eq]

theorem derive256bitKey_plain (platform : Platform) : derive256bitKey platform = derive256bitKey plain := by
  funext key
  rw [derive256bitKey, derive256bitKey, sha256_plain platform]

def seed (baseKey : String) : I256 := derive256bitKey plain (Pich256.asBytes baseKey)

def ring (baseKey : String) : KeyRing U128 := State.keyRing plain (seed baseKey).lo

/-- The word of a passphrase after `n` rounds, those of the warm-up counted. -/
def word (baseKey : String) (n : Nat) : U128 := rounds Fallback.round128 (ring baseKey).key 0 n (seed baseKey).hi

/-- Byte `i` of the keystream of a passphrase: what is tapped of every second word after the warm-up. -/
def keystreamByte (baseKey : String) (i : Nat) : U8 := tapped (word baseKey (WARMUP_ROUNDS + 2 * (i + 1)))

def stateAt (baseKey : String) (n : Nat) : State :=
  (State.initial plain (seed baseKey).hi (seed baseKey).lo).advanced (ring baseKey) n

/-- The cipher that an instance stands for. -/
def realize (cipher : StreamCipher.Instance String) : Pich256 :=
  { st := stateAt cipher.key (WARMUP_ROUNDS + 2 * cipher.used) }

/-- What the ideal cipher is told of an operation: neither a decision nor a direction. -/
def Op.spec : Op → StreamCipher.Op String U8
  | .new _ baseKey => .new baseKey
  | .call handle request => .call handle request.input

/-- The programs of the ideal cipher. -/
abbrev ideal : StreamCipher.Op String U8 → List (StreamCipher.Instance String) →
    Option (List (List U8) × List (StreamCipher.Instance String)) :=
  StreamCipher.apply keystreamByte (· ^^^ ·)

section
variable (baseKey : String)

theorem ring_whole : (ring baseKey).keys.length ∣ 2 ^ 64 := State.keyRing_whole plain (seed baseKey).lo

theorem stateAt_onRing (n : Nat) : State.OnRing (ring baseKey) (stateAt baseKey n) :=
  (State.initial_onRing plain (seed baseKey).hi (seed baseKey).lo).advanced n

@[simp] theorem stateAt_w (n : Nat) : (stateAt baseKey n).w = word baseKey n := rfl

theorem stateAt_advanced (n m : Nat) : (stateAt baseKey n).advanced (ring baseKey) m = stateAt baseKey (n + m) :=
  State.advanced_advanced (ring_whole baseKey) n m

/-- A new cipher is an instance none of whose keystream is used. -/
theorem new_stateAt (platform : Platform) (warmup : Nat → Decision) :
    Pich256.new platform warmup baseKey = some (realize { key := baseKey, used := 0 }) := by
  simp only [Pich256.new, splitKeyInto128bitLimbs, State.new_eq, State.initial, State.keyRing,
    genSubKeys_plain platform, derive256bitKey_plain platform, Option.bind_eq_bind, Option.bind_some]
  rfl

theorem keystream_stateAt (used n : Nat) : (stateAt baseKey (WARMUP_ROUNDS + 2 * used)).keystream (ring baseKey) n =
    (List.range n).map fun i => keystreamByte baseKey (used + i) := by
  rw [State.keystream, emit_eq]
  refine List.map_congr_left fun i _ => ?_
  have place : WARMUP_ROUNDS + 2 * used + 2 * (i + 1) = WARMUP_ROUNDS + 2 * (used + i + 1) := by omega
  have after := congrArg State.w (stateAt_advanced baseKey (WARMUP_ROUNDS + 2 * used) (2 * (i + 1)))
  rw [place, stateAt_w] at after
  exact congrArg tapped after

end

theorem xorBytes_keystream (baseKey : String) (used : Nat) (msg : List U8) :
    xorBytes ((List.range msg.length).map fun i => keystreamByte baseKey (used + i)) msg =
      StreamCipher.folded keystreamByte (· ^^^ ·) baseKey used msg := by
  refine List.ext_getElem (by simp [xorBytes, StreamCipher.folded]) fun i _ _ => ?_
  simp [xorBytes, StreamCipher.folded]

/-- A call on the cipher of an instance is a call on the instance. -/
theorem encrypt_ideal (fill mix : Decision) (cipher : StreamCipher.Instance String) (msg : List U8) :
    Pich256.encrypt fill mix (realize cipher) msg =
      some ((StreamCipher.encrypt keystreamByte (· ^^^ ·) cipher msg).1,
        realize (StreamCipher.encrypt keystreamByte (· ^^^ ·) cipher msg).2) := by
  have place : WARMUP_ROUNDS + 2 * cipher.used + 2 * msg.length = WARMUP_ROUNDS + 2 * (cipher.used + msg.length) := by
    rw [Nat.mul_add, Nat.add_assoc]
  rw [realize, Pich256.encrypt_eq (stateAt_onRing cipher.key _), keystream_stateAt, xorBytes_keystream,
    stateAt_advanced, place]
  rfl

theorem call_ideal (request : Call) (cipher : StreamCipher.Instance String) :
    request.apply (realize cipher) = some ([(StreamCipher.encrypt keystreamByte (· ^^^ ·) cipher request.input).1],
      realize (StreamCipher.encrypt keystreamByte (· ^^^ ·) cipher request.input).2) := by
  cases request <;>
    simp only [Call.apply, Call.input, Pich256.decrypt, encrypt_ideal, Option.bind_eq_bind, Option.bind_some]

theorem Op.apply_ideal (platform : Platform) (op : Op) (ciphers : List (StreamCipher.Instance String)) :
    op.apply platform (ciphers.map realize) =
      (ideal op.spec ciphers).map fun (outs, ciphers) => (outs, ciphers.map realize) := by
  cases op with
  | new warmup baseKey =>
    simp only [apply, spec, ideal, StreamCipher.apply, new_stateAt, Option.bind_eq_bind, Option.bind_some,
      Option.map_some, List.map_append, List.map_singleton]
  | call handle request =>
    simp only [apply, spec, ideal, StreamCipher.apply, List.getElem?_map]
    cases ciphers[handle]? with
    | none => rfl
    | some cipher =>
      simp only [Option.map_some, Option.bind_eq_bind, Option.bind_some, call_ideal, List.map_set]

/-- On every platform and under any decisions, a program of ciphers is the program of the ideal stream cipher: it
fails where that fails, and otherwise returns the same bytes and leaves the ciphers its instances stand for. -/
theorem program_refines (platform : Platform) (ops : List Op) (ciphers : List (StreamCipher.Instance String)) :
    run (Op.apply platform) ops (ciphers.map realize) =
      (run ideal (ops.map Op.spec) ciphers).map fun (outs, ciphers) => (outs, ciphers.map realize) :=
  run_image (Op.apply_ideal platform) ops ciphers

theorem xor_cancels (k m : U8) : k ^^^ (k ^^^ m) = m := by rw [← BitVec.xor_assoc, BitVec.xor_self, BitVec.zero_xor]

section Handles

def baseKeys (ops : List Op) : List String := StreamCipher.keys (ops.map Op.spec)

/-- All that the calls of one handle are given. -/
def given (h : Nat) (ops : List Op) : List U8 := (StreamCipher.sent h (ops.map Op.spec)).flatten

/-- All that the calls of one handle return, out of the outputs of the program. -/
def returned (h : Nat) (ops : List Op) (outs : List (List U8)) : List U8 :=
  (StreamCipher.received h (ops.map Op.spec) outs).flatten

variable {platform : Platform} {ops : List Op} {outs : List (List U8)} {ciphers : List Pich256}

/-- One handle of a program: what its calls returned is the keystream of its own passphrase folded into what they
were given, whatever the program did in between, and its cipher stands as many rounds on. -/
theorem handle_eq (ran : run (Op.apply platform) ops [] = some (outs, ciphers)) {h : Nat} {baseKey : String}
    (made : (baseKeys ops)[h]? = some baseKey) :
    returned h ops outs = StreamCipher.folded keystreamByte (· ^^^ ·) baseKey 0 (given h ops) ∧
      ciphers[h]? = some ⟨stateAt baseKey (WARMUP_ROUNDS + 2 * (given h ops).length)⟩ := by
  have refined := run_image (Op.apply_ideal platform) ops []
  rw [List.map_nil, ran, eq_comm, Option.map_eq_some_iff] at refined
  obtain ⟨⟨_, instances⟩, ideally, same⟩ := refined
  obtain ⟨rfl, rfl⟩ := Prod.mk.inj same
  have fresh : ([] ++ (baseKeys ops).map fun key => StreamCipher.Instance.mk key 0)[h]? =
      some { key := baseKey, used := 0 } := by
    rw [List.nil_append, List.getElem?_map, made, Option.map_some]
  obtain ⟨_, folded, stands⟩ := StreamCipher.run_received ideally fresh
  refine ⟨folded, ?_⟩
  rw [List.getElem?_map, stands, Option.map_some, realize, Nat.zero_add, given]

/-- Two programs, each on its own platform and with its own decisions, chunks and other ciphers. Whatever part of
the ciphertext of a handle of one has been given to a handle of the other on the same passphrase, that one has
returned exactly as much of the message. -/
theorem message_delivered (ran : run (Op.apply platform) ops [] = some (outs, ciphers)) {platform' : Platform}
    {ops' : List Op} {outs' : List (List U8)} {ciphers' : List Pich256}
    (ran' : run (Op.apply platform') ops' [] = some (outs', ciphers')) {h h' : Nat} {baseKey : String}
    (made : (baseKeys ops)[h]? = some baseKey) (made' : (baseKeys ops')[h']? = some baseKey)
    (carried : given h' ops' <+: returned h ops outs) :
    returned h' ops' outs' = (given h ops).take (given h' ops').length := by
  rw [(handle_eq ran made).1] at carried
  rw [(handle_eq ran' made').1]
  exact StreamCipher.folded_arrived _ _ xor_cancels carried

/-- The other program has been given the first two bytes of three. -/
theorem message_delivered_elsewhere : ∃ noise sealed opened ciphers ciphers',
    run (Op.apply ⟨true, true⟩) [.new (fun _ => .portable) "other", .new (fun _ => .portable) "key",
      .call 0 (.encrypt .portable .portable [9]), .call 1 (.encrypt .portable .portable [1, 2, 3])] [] =
        some ([noise, sealed], ciphers) ∧
    run (Op.apply plain) [.new (fun _ => .portable) "key",
      .call 0 (.decrypt ⟨.avx2, true, fun _ => 0⟩ .portable (sealed.take 2))] [] = some ([opened], ciphers') ∧
    opened = [1, 2] := by
  have here := run_image (Op.apply_ideal ⟨true, true⟩) [.new (fun _ => .portable) "other",
    .new (fun _ => .portable) "key", .call 0 (.encrypt .portable .portable [9]),
    .call 1 (.encrypt .portable .portable [1, 2, 3])] []
  have there := run_image (Op.apply_ideal plain) [.new (fun _ => .portable) "key",
    .call 0 (.decrypt ⟨.avx2, true, fun _ => 0⟩ .portable
      ((StreamCipher.folded keystreamByte (· ^^^ ·) "key" 0 [1, 2, 3]).take 2))] []
  have delivered := @message_delivered _ _ _ _ here _ _ _ _ there 1 0 "key" rfl rfl (by
    simpa [given, returned, StreamCipher.sent, StreamCipher.received, Op.spec, Call.input] using List.take_prefix 2 _)
  refine ⟨_, _, _, _, _, here, there, ?_⟩
  simpa [given, returned, StreamCipher.sent, StreamCipher.received, Op.spec, Call.input] using delivered

end Handles

end Pich
