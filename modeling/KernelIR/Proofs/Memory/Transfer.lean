import KernelIR.MemoryLoop
import KernelIR.Proofs.Activation
import KernelIR.Proofs.ByteMachine
import Mathlib

/-!
# Writing bytes one by one

A range is written from either end.  What is read for the next byte is still what memory held
before, if the direction fits the way in which the ranges overlap.
-/

namespace KernelIR

/-- Memory after the bytes from `lo` up to `hi` of the range at `d` are written. -/
def Bytes.write (mem : Bytes) (d lo hi : Nat) (bytes : Nat → UInt8) : Bytes := fun a =>
  if d + lo ≤ a ∧ a < d + hi then bytes (a - d) else mem a

namespace Bytes

variable (mem : Bytes) (d : Nat) (bytes : Nat → UInt8)

@[simp] theorem write_empty (lo : Nat) : mem.write d lo lo bytes = mem := by
  funext a
  have hnot : ¬(d + lo ≤ a ∧ a < d + lo) := by omega
  rw [write, if_neg hnot]

theorem write_of_not_mem {lo hi a : Nat} (h : ¬(d + lo ≤ a ∧ a < d + hi)) :
    mem.write d lo hi bytes a = mem a :=
  if_neg h

theorem update_write_hi {lo hi : Nat} (h : lo ≤ hi) :
    Function.update (mem.write d lo hi bytes) (d + hi) (bytes hi) =
      mem.write d lo (hi + 1) bytes := by
  funext a
  by_cases ha : a = d + hi
  · have hin : d + lo ≤ d + hi ∧ d + hi < d + (hi + 1) := by omega
    rw [ha, Function.update_self, write, if_pos hin, Nat.add_sub_cancel_left]
  · have hiff : (d + lo ≤ a ∧ a < d + (hi + 1)) ↔ d + lo ≤ a ∧ a < d + hi := by omega
    rw [Function.update_of_ne ha]
    simp only [write, hiff]

theorem update_write_lo {lo hi : Nat} (h : lo < hi) :
    Function.update (mem.write d (lo + 1) hi bytes) (d + lo) (bytes lo) =
      mem.write d lo hi bytes := by
  funext a
  by_cases ha : a = d + lo
  · have hin : d + lo ≤ d + lo ∧ d + lo < d + hi := by omega
    rw [ha, Function.update_self, write, if_pos hin, Nat.add_sub_cancel_left]
  · have hiff : (d + (lo + 1) ≤ a ∧ a < d + hi) ↔ d + lo ≤ a ∧ a < d + hi := by omega
    rw [Function.update_of_ne ha]
    simp only [write, hiff]

end Bytes

namespace MemIntrinsic

/-- The values of its source that a transfer of `n` bytes to `d` is defined for. -/
inductive Allows (d n : Nat) : MemIntrinsic → Word → Prop
  | set (x : Nat) : Allows d n .set (.bits 8 x)
  | move {s : Nat} (hs : s + n ≤ 2 ^ 64) : Allows d n .move (.bits 64 s)
  | copy {s : Nat} (hs : s + n ≤ 2 ^ 64) (h : s = d ∨ s + n ≤ d ∨ d + n ≤ s) :
      Allows d n .copy (.bits 64 s)

/-- The byte that is written at offset `i`. -/
def byteAt (kind : MemIntrinsic) (source : Word) (mem : Bytes) (i : Nat) : UInt8 :=
  match kind, source with
  | .set, .bits _ x => UInt8.ofNat x
  | .copy, .bits _ s | .move, .bits _ s => mem (s + i)
  | _, _ => 0

/-- The source is read before it is overwritten when the offset counts up. -/
def Forward (kind : MemIntrinsic) (source : Word) (d n : Nat) : Prop :=
  ∀ (mem : Bytes) (i : Nat) (bytes : Nat → UInt8), i < n →
    kind.byteAt source (mem.write d 0 i bytes) i = kind.byteAt source mem i

/-- The source is read before it is overwritten when the offset counts down. -/
def Backward (kind : MemIntrinsic) (source : Word) (d n : Nat) : Prop :=
  ∀ (mem : Bytes) (i : Nat) (bytes : Nat → UInt8), i < n →
    kind.byteAt source (mem.write d (i + 1) n bytes) i = kind.byteAt source mem i

theorem forward_set (source : Word) (d n : Nat) : Forward .set source d n := by
  intro mem i bytes _
  cases source <;> rfl

theorem forward_copy {s d n : Nat} (h : s = d ∨ s + n ≤ d ∨ d + n ≤ s) :
    Forward .copy (.bits 64 s) d n := by
  intro mem i bytes hi
  exact mem.write_of_not_mem d bytes (by omega)

theorem forward_move {s d : Nat} (h : d ≤ s) (n : Nat) : Forward .move (.bits 64 s) d n := by
  intro mem i bytes _
  exact mem.write_of_not_mem d bytes (by omega)

theorem backward_move {s d : Nat} (h : s < d) (n : Nat) : Backward .move (.bits 64 s) d n := by
  intro mem i bytes _
  exact mem.write_of_not_mem d bytes (by omega)

end MemIntrinsic

namespace MemCall

variable {address : GlobalId → Nat}
  {external : Word → List Word → Bytes → Option (Word × Bytes)}
  {F G : Frame (byteMachine address external)} {c : MemCall} {lo base : Reg} {w d n i : Nat}
  {v : Word}

/-- The arguments of the call have values for a transfer, and no register from `lo` on. -/
structure Loaded (c : MemCall) (lo : Reg) (F : Frame (byteMachine address external))
    (w d n : Nat) (v : Word) : Prop where
  below : ∀ op ∈ [c.dst, c.source, c.len], op.Below lo
  len_ty : c.lenTy = .int w
  width : 1 ≤ w ∧ w ≤ 64
  dst : F.eval c.dst = .bits 64 d
  source : F.eval c.source = v
  len : F.eval c.len = .bits w n
  len_lt : n < 2 ^ w
  range : d + n ≤ 2 ^ 64
  allows : c.kind.Allows d n v

namespace Loaded

theorem keeps (h : c.Loaded lo F w d n v) (hk : F.Keeps lo G) :
    c.Loaded lo G w d n v :=
  { h with
    dst := (hk.eval (h.below _ (by simp))).trans h.dst
    source := (hk.eval (h.below _ (by simp))).trans h.source
    len := (hk.eval (h.below _ (by simp))).trans h.len }

theorem eval_const (h : c.Loaded lo F w d n v) {k : Nat} (hk : k < 2 ^ w) :
    F.eval (c.const k) = .bits w k := by
  have hfits : IntConst.ofNat? w k = some ⟨w, k⟩ := by
    refine IntConst.ofNat?_eq_some_iff.2 ⟨rfl, (IntConst.fits_iff _).2 ?_⟩
    have hshift : (1 <<< w : Nat) = 2 ^ w := Nat.one_shiftLeft w
    have hw := h.width
    simp only [hshift]
    omega
  have hconst : c.const k = .imm ⟨w, k⟩ := by
    simp only [const, h.len_ty, Ty.intWidth?, Option.getD_some, hfits]
  rw [hconst]
  exact congrArg (Word.bits w) (Nat.mod_eq_of_lt hk)

theorem computes_store (h : c.Loaded lo F w d n v) (hi : i < n) {index : Operand}
    (hindex : F.eval index = .bits w i) {value : Operand} {x : Nat}
    (hvalue : F.eval value = .bits 8 x) (hne : value ≠ .reg base) (mem : Bytes) :
    ∃ G, Computes [.gep base c.dstTy .i8 c.dst [index], .store (.reg base) value c.volatile]
      (F, mem) (G, Function.update mem (d + i) (UInt8.ofNat x)) ∧ F.Keeps base G := by
  have hrange := h.range
  have haddr : Word.compute (.gep c.dstTy .i8) [F.eval c.dst, F.eval index] mem =
      some (.bits 64 (d + i), mem) := by
    rw [h.dst, hindex]
    exact Word.compute_gep c.dstTy (by omega) w mem
  let F₁ := F.advance (some base) (.bits 64 (d + i))
  have hwrite : Word.compute (.store c.volatile) [F₁.eval (.reg base), F₁.eval value] mem =
      some (.undefined, Function.update mem (d + i) (UInt8.ofNat x)) := by
    have hat : F₁.eval (.reg base) = .bits 64 (d + i) := F.eval_advance_self _ _
    have hvalue' : F₁.eval value = .bits 8 x := (F.eval_advance_of_ne _ hne).trans hvalue
    rw [hat, hvalue']
    exact Word.compute_store c.volatile (d + i) x mem
  have hkeeps : F.Keeps base F₁ := (Frame.Keeps.refl base F).advance (Nat.le_refl _) _
  exact ⟨F₁.advance none .undefined, .cons rfl haddr (.cons rfl hwrite .nil),
    hkeeps.advance_none _⟩

theorem computes_load (h : c.Loaded lo F w d n v) (hi : i < n) {index : Operand}
    (hindex : F.eval index = .bits w i) {s : Nat} (hs : v = .bits 64 s) (hrange : s + n ≤ 2 ^ 64)
    (base : Reg) (mem : Bytes) :
    ∃ G, Computes [.gep (base + 1) c.sourceTy .i8 c.source [index],
        .load (base + 2) .i8 (.reg (base + 1)) c.volatile] (F, mem) (G, mem) ∧
      F.Keeps (base + 1) G ∧ G.eval (.reg (base + 2)) = .bits 8 (mem (s + i)).toNat := by
  have haddr : Word.compute (.gep c.sourceTy .i8) [F.eval c.source, F.eval index] mem =
      some (.bits 64 (s + i), mem) := by
    rw [h.source, hs, hindex]
    exact Word.compute_gep c.sourceTy (by omega) w mem
  let F₁ := F.advance (some (base + 1)) (.bits 64 (s + i))
  have hread : Word.compute (.load .i8 c.volatile) [F₁.eval (.reg (base + 1))] mem =
      some (.bits 8 (mem (s + i)).toNat, mem) := by
    have hat : F₁.eval (.reg (base + 1)) = .bits 64 (s + i) := F.eval_advance_self _ _
    rw [hat]
    exact Word.compute_load c.volatile (s + i) mem
  have hkeeps : F.Keeps (base + 1) F₁ :=
    (Frame.Keeps.refl (base + 1) F).advance (Nat.le_refl _) _
  exact ⟨F₁.advance (some (base + 2)) _, .cons rfl haddr (.cons rfl hread .nil),
    hkeeps.advance (Nat.le_succ _) _, F₁.eval_advance_self _ _⟩

theorem computes_transferByte (h : c.Loaded lo F w d n v) (hle : lo ≤ base) (hi : i < n)
    {index : Operand} (hindex : F.eval index = .bits w i) (hbelow : index.Below base)
    (mem : Bytes) :
    ∃ G, Computes (c.transferByte base index) (F, mem)
      (G, Function.update mem (d + i) (c.kind.byteAt v mem i)) ∧ F.Keeps base G := by
  have hmoved {s : Nat} (hv : v = .bits 64 s) (hs : s + n ≤ 2 ^ 64) :
      ∃ G, Computes ([.gep (base + 1) c.sourceTy .i8 c.source [index],
          .load (base + 2) .i8 (.reg (base + 1)) c.volatile] ++
            [.gep base c.dstTy .i8 c.dst [index],
              .store (.reg base) (.reg (base + 2)) c.volatile])
        (F, mem) (G, Function.update mem (d + i) (mem (s + i))) ∧ F.Keeps base G := by
    obtain ⟨F₁, hload, hkeeps, hbyte⟩ := h.computes_load hi hindex hv hs base mem
    have hkeeps' : F.Keeps base F₁ := hkeeps.mono (Nat.le_succ _)
    have hindex' : F₁.eval index = .bits w i := (hkeeps'.eval hbelow).trans hindex
    have hne : Operand.reg (base + 2) ≠ .reg base := by simp
    obtain ⟨G, hstore, hkeeps''⟩ :=
      (h.keeps (hkeeps'.mono hle)).computes_store hi hindex' hbyte hne mem
    rw [UInt8.ofNat_toNat] at hstore
    exact ⟨G, hload.append hstore, hkeeps'.trans hkeeps''⟩
  have hallows := h.allows
  have hsource := h.source
  have hbelow' := h.below c.source (by simp)
  rw [transferByte]
  generalize hkind : c.kind = kind at hallows
  cases hallows with
  | set x =>
      have hne : c.source ≠ .reg base := fun heq =>
        absurd (hbelow' base heq) (Nat.not_lt.2 hle)
      exact h.computes_store hi hindex hsource hne mem
  | move hs => exact hmoved rfl hs
  | copy hs _ => exact hmoved rfl hs

end Loaded

end MemCall

end KernelIR
