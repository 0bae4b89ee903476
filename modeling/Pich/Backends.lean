import Pich.Cipher

namespace Pich
open Generator Runs

/-- A program over any number of ciphers: it makes one, or calls the one with a given handle. -/
inductive Op
  | new (warmup : Nat → Decision) (baseKey : String)
  | call (handle : Nat) (request : Call)

def Call.portable : Call → Call
  | .encrypt _ _ msg => .encrypt .portable .portable msg
  | .decrypt _ _ ciphertext => .decrypt .portable .portable ciphertext

namespace Op

/-- One operation of a program; a handle without a cipher behind it fails. -/
def apply (platform : Platform) : Op → List Pich256 → Option (List (List U8) × List Pich256)
  | .new warmup baseKey, ciphers => do
    let cipher ← Pich256.new platform warmup baseKey
    some ([], ciphers ++ [cipher])
  | .call handle request, ciphers => do
    let cipher ← ciphers[handle]?
    let (out, cipher) ← request.apply cipher
    some (out, ciphers.set handle cipher)

def portable : Op → Op
  | .new _ baseKey => .new (fun _ => .portable) baseKey
  | .call handle request => .call handle request.portable

end Op

/-- Programs that call only ciphers they have made, with `made` of them made before. -/
def WellHandled : Nat → List Op → Prop
  | _, [] => True
  | made, .new _ _ :: ops => WellHandled (made + 1) ops
  | made, .call handle _ :: ops => handle < made ∧ WellHandled made ops

theorem Call.portable_apply (request : Call) (cipher : Pich256) :
    request.portable.apply cipher = request.apply cipher := by
  cases request <;>
    simp only [Call.portable, Call.apply, Pich256.decrypt, Pich256.encrypt, State.fillKeystream, Arch.fillKeystream_eq,
      Arch.xorInto_eq]

namespace Op

theorem portable_apply (platform : Platform) (op : Op) (ciphers : List Pich256) :
    op.portable.apply platform ciphers = op.apply platform ciphers := by
  cases op with
  | new warmup baseKey =>
    obtain ⟨_, _, constructed, _⟩ := Pich256.new_eq platform baseKey
    simp only [portable, apply, constructed]
  | call handle request => simp only [portable, apply, Call.portable_apply]

def Keyed (ciphers : List Pich256) : Prop := ∀ cipher ∈ ciphers, ∃ ring, State.OnRing ring cipher.st

/-- A program that calls only what it has made never fails. -/
theorem run_wellHandled (platform : Platform) {ops : List Op} {ciphers : List Pich256} (keyed : Keyed ciphers)
    (handled : WellHandled ciphers.length ops) :
    ∃ outs last, run (apply platform) ops ciphers = some (outs, last) := by
  induction ops generalizing ciphers with
  | nil => exact ⟨[], ciphers, rfl⟩
  | cons op ops ih =>
    cases op with
    | new warmup baseKey =>
      obtain ⟨ke, st, constructed, on⟩ := Pich256.new_eq platform baseKey
      have more : Keyed (ciphers ++ [⟨st⟩]) := fun cipher member => by
        rcases List.mem_append.mp member with old | new
        · exact keyed cipher old
        · rw [List.mem_singleton.mp new]
          exact ⟨_, on⟩
      obtain ⟨outs, last, rest⟩ := ih more (by rwa [List.length_append, List.length_singleton])
      have first : apply platform (.new warmup baseKey) ciphers = some ([], ciphers ++ [Pich256.mk st]) := by
        simp only [apply, constructed, Option.bind_eq_bind, Option.bind_some]
      exact ⟨_, last, run_cons first rest⟩
    | call handle request =>
      obtain ⟨within, handled⟩ := handled
      obtain ⟨ring, on⟩ := keyed _ (List.getElem_mem within)
      obtain ⟨out, st, called, moved⟩ : ∃ out st, request.apply ciphers[handle] = some (out, ⟨st⟩) ∧
          State.OnRing ring st := ⟨_, _, Pich256.apply_eq on request, on.advanced _⟩
      have kept : Keyed (ciphers.set handle ⟨st⟩) := fun cipher member => by
        rcases List.mem_or_eq_of_mem_set member with old | new
        · exact keyed cipher old
        · rw [new]
          exact ⟨ring, moved⟩
      obtain ⟨outs, last, rest⟩ := ih kept (by rwa [List.length_set])
      have first : apply platform (.call handle request) ciphers = some (out, ciphers.set handle ⟨st⟩) := by
        simp only [apply, List.getElem?_eq_getElem within, called, Option.bind_eq_bind, Option.bind_some]
      exact ⟨_, last, run_cons first rest⟩

end Op

/-- Whatever each dispatch decides, even if it changes from one to the next, a program returns the bytes and
leaves the ciphers of the portable path. -/
theorem backend_independent (platform : Platform) {ops : List Op} (handled : WellHandled 0 ops) :
    ∃ outs ciphers, run (Op.apply platform) ops [] = some (outs, ciphers) ∧
      run (Op.apply platform) (ops.map Op.portable) [] = some (outs, ciphers) := by
  obtain ⟨outs, ciphers, ran⟩ := Op.run_wellHandled platform (fun _ none => nomatch none : Op.Keyed []) handled
  exact ⟨outs, ciphers, ran, by rw [run_map (Op.portable_apply platform), ran]⟩

theorem backend_independent_mixed :
    ∃ outs ciphers,
      run (Op.apply ⟨true, true⟩)
        [.new (fun i => ⟨if i % 2 = 0 then .avx2 else .gfni, true, fun _ => 0⟩) "key",
          .call 0 (.encrypt ⟨.avx512Vbmi, false, fun n => BitVec.ofNat 384 (n + 1)⟩ ⟨.sse2, false, fun _ => 0⟩
            [1, 2, 3])] [] =
        some (outs, ciphers) ∧
      run (Op.apply ⟨true, true⟩)
        [.new (fun _ => .portable) "key", .call 0 (.encrypt .portable .portable [1, 2, 3])] [] =
        some (outs, ciphers) :=
  backend_independent ⟨true, true⟩ ⟨by decide, trivial⟩

end Pich
