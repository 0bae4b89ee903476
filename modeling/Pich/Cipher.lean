import Pich.Base.Runs
import Pich.Kdf
import Pich.State

namespace Pich
open Bytes Generator Runs

structure Pich256 where
  st : State

namespace Pich256

/-- `as_bytes` of a string: its UTF-8 encoding. -/
def asBytes (baseKey : String) : List U8 := baseKey.toUTF8.data.toList.map UInt8.toBitVec

/-- A passphrase becomes a 256-bit key, and its halves the word and the seed. -/
def new (platform : Platform) (decisions : Nat → Decision) (baseKey : String) : Option Pich256 := do
  let derivedKey := derive256bitKey platform (asBytes baseKey)
  let (keyHi, keyLo) := splitKeyInto128bitLimbs derivedKey
  let st ← State.new platform decisions keyHi keyLo
  some { st }

/-- The keystream goes into the output buffer first; the message is folded in after it. -/
def encrypt (fill mix : Decision) (cipher : Pich256) (msg : List U8) : Option (List U8 × Pich256) := do
  let (out, st) ← cipher.st.fillKeystream fill msg.length
  let out ← Arch.xorInto mix out msg
  some (out, { st })

/-- Decryption is encryption, as in every stream cipher. -/
def decrypt (fill mix : Decision) (cipher : Pich256) (ciphertext : List U8) : Option (List U8 × Pich256) :=
  encrypt fill mix cipher ciphertext

end Pich256

inductive Call
  | encrypt (fill mix : Decision) (msg : List U8)
  | decrypt (fill mix : Decision) (ciphertext : List U8)

namespace Call

def input : Call → List U8
  | .encrypt _ _ msg => msg
  | .decrypt _ _ ciphertext => ciphertext

def apply : Call → Pich256 → Option (List (List U8) × Pich256)
  | .encrypt fill mix msg, cipher => do
    let (out, cipher) ← cipher.encrypt fill mix msg
    some ([out], cipher)
  | .decrypt fill mix ciphertext, cipher => do
    let (out, cipher) ← cipher.decrypt fill mix ciphertext
    some ([out], cipher)

end Call

def inputs (calls : List Call) : List U8 := calls.flatMap Call.input

namespace Pich256

/-- Construction from a passphrase succeeds, in a state on a ring that no decision changes. -/
theorem new_eq (platform : Platform) (baseKey : String) :
    ∃ (ke : I128) (st : State), (∀ decisions, new platform decisions baseKey = some { st }) ∧
      State.OnRing (State.keyRing platform ke) st := by
  let key := derive256bitKey platform (asBytes baseKey)
  refine ⟨key.lo, _, fun decisions => ?_, (State.initial_onRing platform key.hi key.lo).advanced WARMUP_ROUNDS⟩
  simp only [new, splitKeyInto128bitLimbs, State.new_eq, Option.bind_eq_bind, Option.bind_some, key]

section Session
variable {ring : KeyRing U128}

theorem encrypt_eq {st : State} (on : State.OnRing ring st) (fill mix : Decision) (msg : List U8) :
    encrypt fill mix { st } msg = some (xorBytes (st.keystream ring msg.length) msg,
      { st := st.advanced ring (2 * msg.length) }) := by
  have size : (st.keystream ring msg.length).length = msg.length := State.keystream_length _
  simp only [encrypt, State.fillKeystream_eq fill on.flat, Arch.xorInto_eq, Option.bind_eq_bind, Option.bind_some,
    Fallback.xorInto_eq_zipWith size, xorBytes]

theorem apply_eq {st : State} (on : State.OnRing ring st) (call : Call) :
    call.apply { st } = some ([xorBytes (st.keystream ring call.input.length) call.input],
      { st := st.advanced ring (2 * call.input.length) }) := by
  cases call with
  | encrypt fill mix msg => simp [Call.apply, Call.input, encrypt_eq on]
  | decrypt fill mix ciphertext => simp [Call.apply, Call.input, decrypt, encrypt_eq on]

/-- A session as a whole: the outputs are as long as the inputs, and together they are the keystream folded into
the concatenated input, wherever it was cut. -/
theorem run_eq (whole : ring.keys.length ∣ 2 ^ 64) {st : State} (on : State.OnRing ring st) (calls : List Call) :
    ∃ outs, run Call.apply calls { st } = some (outs, { st := st.advanced ring (2 * (inputs calls).length) }) ∧
      outs.map List.length = calls.map (fun call => call.input.length) ∧
      outs.flatten = xorBytes (st.keystream ring (inputs calls).length) (inputs calls) := by
  induction calls generalizing st with
  | nil => exact ⟨[], by simp [run, inputs, State.advanced_zero], rfl, by simp [inputs, xorBytes]⟩
  | cons call calls ih =>
    obtain ⟨outs, rest, lengths, folded⟩ := ih (on.advanced (2 * call.input.length))
    have first := apply_eq on call
    have joined : inputs (call :: calls) = call.input ++ inputs calls := List.flatMap_cons
    refine ⟨[xorBytes (st.keystream ring call.input.length) call.input] ++ outs, ?_, ?_, ?_⟩
    · rw [run_cons first rest, State.advanced_advanced whole, joined, List.length_append, Nat.mul_add]
    · simp [lengths]
    · rw [joined, List.length_append, State.keystream_add whole, xorBytes_append (State.keystream_length _),
        List.flatten_append, folded, List.flatten_singleton]

end Session

/-- Two sessions on one passphrase with the same number of bytes, however chunked and whatever the contents:
outputs as long as inputs, the same state, and ciphertexts that differ exactly as the inputs do. A session fed
the ciphertext of another returns its plaintext. -/
theorem session_synchronous (platform : Platform) (baseKey : String) (warmup warmup' : Nat → Decision)
    (calls calls' : List Call) (same : (inputs calls).length = (inputs calls').length) :
    ∃ cipher cipher' outs outs' last last',
      new platform warmup baseKey = some cipher ∧ new platform warmup' baseKey = some cipher' ∧
      run Call.apply calls cipher = some (outs, last) ∧ run Call.apply calls' cipher' = some (outs', last') ∧
      outs.map List.length = calls.map (fun call => call.input.length) ∧
      outs'.map List.length = calls'.map (fun call => call.input.length) ∧
      last.st.w = last'.st.w ∧ last.st.roundIndex = last'.st.roundIndex ∧
      (∀ i < (inputs calls).length, outs.flatten.getD i 0 ^^^ outs'.flatten.getD i 0 =
        (inputs calls).getD i 0 ^^^ (inputs calls').getD i 0) ∧
      (inputs calls' = outs.flatten → outs'.flatten = inputs calls) := by
  obtain ⟨ke, st, constructed, on⟩ := new_eq platform baseKey
  have whole := State.keyRing_whole platform ke
  obtain ⟨outs, session, lengths, folded⟩ := run_eq whole on calls
  obtain ⟨outs', session', lengths', folded'⟩ := run_eq whole on calls'
  refine ⟨_, _, outs, outs', _, _, constructed warmup, constructed warmup', session, session', lengths, lengths',
    by rw [same], by rw [same], fun i within => ?_, fun ciphertext => ?_⟩
  · rw [folded, folded', xorBytes_getD (by simpa using within) within,
      xorBytes_getD (by simpa [← same] using within) (same ▸ within), same]
    generalize (st.keystream (State.keyRing platform ke) (inputs calls').length).getD i 0 = k
    rw [BitVec.xor_comm k, BitVec.xor_assoc, ← BitVec.xor_assoc k, BitVec.xor_self, BitVec.zero_xor]
  · rw [folded', ← same, ciphertext, folded, xorBytes_cancel (State.keystream_length _)]

theorem session_synchronous_rechunked :
    ∃ cipher cipher' outs outs' last last',
      new ⟨true, false⟩ (fun _ => .portable) "key" = some cipher ∧
      new ⟨true, false⟩ (fun _ => .portable) "key" = some cipher' ∧
      run Call.apply [.encrypt .portable .portable [1, 2, 3]] cipher = some (outs, last) ∧
      run Call.apply [.decrypt .portable .portable [], .decrypt .portable .portable [9],
        .encrypt .portable .portable [8, 7]] cipher' = some (outs', last') ∧
      last.st.w = last'.st.w ∧ last.st.roundIndex = last'.st.roundIndex := by
  obtain ⟨cipher, cipher', outs, outs', last, last', made, made', ran, ran', _, _, word, counter, _⟩ :=
    session_synchronous ⟨true, false⟩ "key" (fun _ => .portable) (fun _ => .portable)
      [.encrypt .portable .portable [1, 2, 3]]
      [.decrypt .portable .portable [], .decrypt .portable .portable [9], .encrypt .portable .portable [8, 7]] rfl
  exact ⟨cipher, cipher', outs, outs', last, last', made, made', ran, ran', word, counter⟩

end Pich256

end Pich
