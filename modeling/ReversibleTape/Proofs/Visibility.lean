import ReversibleTape.Fingerprint
import ReversibleTape.Proofs.Support

/-!
# What a fingerprint tells apart

A fingerprint is computed from a byte string. **The byte string is an exact account of what can be
seen** through the window (`Fingerprint.message_eq_iff`): from it the cells in the window, the
pointer and the kind can be recovered, and nothing else goes into it. There is no separator and no
length in it, but it can be read from the end. The kind and the pointer have a fixed length, and
what is left are cells of twelve bytes each, whose number follows from its length
(`Fingerprint.flatMap_cellBytes_inj`).

So fingerprints are equal where what can be seen is, and where they are equal although it is not,
the beginnings of two digests of different byte strings are the same
(`Fingerprint.equal_or_collision`).
-/

namespace ReversibleTape

namespace Fingerprint

variable {t u : Tape} {pointer pointer' window : UInt64} {kind kind' : Kind}

/-! ### The byte string -/

@[simp] theorem length_cellBytes (cell : Nat × UInt32) : (cellBytes cell).length = 12 := by
  simp [cellBytes]

/-- A cell is told by its bytes if its index is a word. -/
theorem cellBytes_inj {cell cell' : Nat × UInt32} (hcell : cell.1 < UInt64.size)
    (hcell' : cell'.1 < UInt64.size) (h : cellBytes cell = cellBytes cell') : cell = cell' := by
  obtain ⟨hindex, hvalue⟩ := List.append_inj h (by simp)
  have hfirst : cell.1 = cell'.1 := Bytes.littleEndian_inj hindex hcell hcell'
  have hsecond : cell.2.toNat = cell'.2.toNat :=
    Bytes.littleEndian_inj hvalue cell.2.toNat_lt cell'.2.toNat_lt
  exact Prod.ext hfirst (UInt32.toNat_inj.mp hsecond)

theorem length_flatMap_cellBytes (cells : List (Nat × UInt32)) :
    (cells.flatMap cellBytes).length = 12 * cells.length := by
  simp [List.length_flatMap, Nat.mul_comm]

/-- Cells are told by their bytes: their number by the length, and then one after the other. -/
theorem flatMap_cellBytes_inj {cells cells' : List (Nat × UInt32)}
    (hcells : ∀ cell ∈ cells, cell.1 < UInt64.size)
    (hcells' : ∀ cell ∈ cells', cell.1 < UInt64.size)
    (h : cells.flatMap cellBytes = cells'.flatMap cellBytes) : cells = cells' := by
  have hlength : cells.length = cells'.length := by
    have hbytes := congrArg List.length h
    rw [length_flatMap_cellBytes, length_flatMap_cellBytes] at hbytes
    omega
  induction cells generalizing cells' with
  | nil => exact (List.eq_nil_of_length_eq_zero hlength.symm).symm
  | cons cell cells ih =>
    cases cells' with
    | nil => cases hlength
    | cons cell' cells' =>
      obtain ⟨hfirst, hrest⟩ := List.append_inj h (by simp)
      rw [List.forall_mem_cons] at hcells hcells'
      rw [cellBytes_inj hcells.1 hcells'.1 hfirst,
        ih hcells.2 hcells'.2 hrest (Nat.succ.inj hlength)]

/-- The same can be seen through a window: the same cells in the window, the same pointer, and the
same kind, where the tail of a loop counts as its head. -/
structure Alike (window : UInt64) (t u : Tape) (pointer pointer' : UInt64)
    (kind kind' : Kind) : Prop where
  get_eq : ∀ i < window.toNat, t.get i = u.get i
  pointer_eq : pointer = pointer'
  loopHead_eq : kind.loopHead = kind'.loopHead

/-- The cells in a window have words as indices. -/
theorem lt_of_mem_nonzeroWithin {cell : Nat × UInt32}
    (h : cell ∈ t.nonzeroWithin window.toNat) : cell.1 < UInt64.size := by
  rw [Tape.nonzeroWithin_eq] at h
  exact Nat.lt_trans (mem_nonzeroBelow_iff.mp h).1 window.toNat_lt

/-- **The byte string is an exact account of what can be seen.** -/
theorem message_eq_iff :
    message t pointer kind window = message u pointer' kind' window ↔
      Alike window t u pointer pointer' kind kind' := by
  constructor
  · intro h
    -- The byte string is read from its end.
    obtain ⟨hfront, hkind⟩ := List.append_inj' h rfl
    obtain ⟨hcells, hpointer⟩ := List.append_inj' hfront (by simp)
    have hnonzero := flatMap_cellBytes_inj (fun _ => lt_of_mem_nonzeroWithin)
      (fun _ => lt_of_mem_nonzeroWithin) hcells
    exact
      { get_eq := Tape.nonzeroWithin_eq_iff.mp hnonzero
        pointer_eq := UInt64.toNat_inj.mp
          (Bytes.littleEndian_inj hpointer pointer.toNat_lt pointer'.toNat_lt)
        loopHead_eq := Kind.code_inj.mp (List.singleton_inj.mp hkind) }
  · rintro ⟨hget, rfl, hkind⟩
    rw [message, message, Tape.nonzeroWithin_eq_iff.mpr hget, hkind]

/-! ### The digest -/

/-- Fingerprints are equal exactly if the digests begin with the same eight bytes. -/
theorem ofMessage_eq_iff {m m' : List UInt8} :
    ofMessage m = ofMessage m' ↔ (Sha256.digest m).take 8 = (Sha256.digest m').take 8 := by
  have hlength (m : List UInt8) : ((Sha256.digest m).take 8).length = 8 := by simp
  have hvalue (m : List UInt8) :
      (ofMessage m).value.toNat = Bytes.ofLittleEndian ((Sha256.digest m).take 8) := by
    refine UInt64.toNat_ofNat_of_lt' ?_
    have hlt := Bytes.ofLittleEndian_lt ((Sha256.digest m).take 8)
    rwa [hlength] at hlt
  constructor
  · intro h
    refine Bytes.ofLittleEndian_inj ((hlength m).trans (hlength m').symm) ?_
    rw [← hvalue, ← hvalue, h]
  · intro h
    rw [ofMessage, ofMessage, h]

/-- **Fingerprints tell apart what can be seen, up to collisions.** The byte strings that are hashed
are equal exactly if the same can be seen. Then the fingerprints are equal too; and if they are
equal although not the same can be seen, two different byte strings have digests that begin with
the same eight bytes. -/
theorem equal_or_collision (window : UInt64) (t u : Tape) (pointer pointer' : UInt64)
    (kind kind' : Kind) :
    (message t pointer kind window = message u pointer' kind' window ↔
      Alike window t u pointer pointer' kind kind') ∧
    (Alike window t u pointer pointer' kind kind' →
      compute t pointer kind window = compute u pointer' kind' window) ∧
    (compute t pointer kind window = compute u pointer' kind' window →
      ¬Alike window t u pointer pointer' kind kind' →
        message t pointer kind window ≠ message u pointer' kind' window ∧
          (Sha256.digest (message t pointer kind window)).take 8 =
            (Sha256.digest (message u pointer' kind' window)).take 8) := by
  refine ⟨message_eq_iff, fun h => ?_, fun h hnot => ?_⟩
  · exact congrArg ofMessage (message_eq_iff.mpr h)
  · exact ⟨mt message_eq_iff.mp hnot, ofMessage_eq_iff.mp h⟩

end Fingerprint

end ReversibleTape
