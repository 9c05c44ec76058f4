import Elaborato.Mentos.InitrdFiles
import Elaborato.Mentos.KheapRuns

/-!
`initrd_write` with its copy in the kernel heap: one byte more is copied than asked for.
-/
namespace Elaborato.Mentos.Initrd
open Foundation Kheap Function

def strcpy (m : ByteMem) (dst : Nat) (src : Name) : ByteMem := fun x =>
  if dst ≤ x ∧ x ≤ dst + src.length then src.getD (x - dst) 0 else m x

inductive WriteHalt
  | heap (halt : HeapHalt)
  | fs (halt : FsHalt)

def initrdWriteCopy (heap : HeapArea) (h : HeapState) (s : Fs) (fildes : Int) (buf : Name)
    (nbyte : UInt32) : Except WriteHalt (Int × Fs × HeapState) :=
  if nbyte = 0 then .ok (0, s, h)
  else do
    let (tmp, h) ← (Kheap.kmalloc heap h buf.length).mapError .heap
    let mem := strcpy h.mem tmp buf
    let (ret, s) ← (initrdWrite s (fun i => mem (tmp + i)) fildes buf nbyte).mapError .fs
    let h ← (Kheap.kfree heap { h with mem } tmp).mapError .heap
    .ok (ret, s, h)

def blockSize (m : ByteMem) (ptr : Nat) : Nat := getRealSize (cell m (ptr - overhead) sizeWord)

variable {s s' : Fs} {memory : Nat → UInt8} {fildes ret : Int} {buf : Name} {nbyte : UInt32}

/-- Where the write starts in the image. -/
def writeStart (s : Fs) (k lfd : Nat) : Int :=
  (s.headers lfd).offset.toNat + (s.descriptors k).curPos

theorem initrdWrite_effect (done : initrdWrite s memory fildes buf nbyte = .ok (ret, s'))
    (some : nbyte ≠ 0) (enough : nbyte.toNat ≤ buf.length) : ∃ k lfd,
      lookup s fildes = .ok (k, lfd) ∧ ret = signed (nbyte + 1) ∧
      (∀ i ≤ nbyte.toNat, s'.image (writeStart s k lfd + i).toNat = buf.getD i 0) ∧
      (∀ x : Nat, x < writeStart s k lfd ∨ writeStart s k lfd + nbyte.toNat < x →
        s'.image x = s.image x) ∧
      s'.headers = update s.headers lfd
        { s.headers lfd with length := (s.headers lfd).length + (nbyte + 1) } := by
  unfold initrdWrite at done
  rw [if_neg some] at done
  cases found : lookup s fildes with
  | error halt =>
    rw [found] at done
    cases done
  | ok place =>
    obtain ⟨k, lfd⟩ := place
    rw [found] at done
    change (if _ then _ else _) = _ at done
    split at done
    · cases done
    · rename_i low
      have behind : (8836 : Int) ≤ writeStart s k lfd := Int.not_lt.mp low
      split at done
      · cases done
      · cases done
        refine ⟨k, lfd, rfl, rfl, fun i below => ?_, fun x outside => ?_, rfl⟩
        · change (if writeStart s k lfd ≤ _ ∧ _ ≤ writeStart s k lfd + _ then
            if (_ - writeStart s k lfd).toNat ≤ _ then buf.getD (_ - writeStart s k lfd).toNat 0
              else _ else _) = _
          generalize writeStart s k lfd = start at behind
          have index : (((start + i).toNat : Int) - start).toNat = i := by omega
          rw [if_pos (by omega), index, if_pos (by omega)]
        · change (if writeStart s k lfd ≤ _ ∧ _ ≤ writeStart s k lfd + _ then _ else _) = _
          exact if_neg (by omega)

variable {heap : HeapArea} {h : HeapState}

structure WritesBytes (heap : HeapArea) (h : HeapState) (s : Fs) (k lfd : Nat) (buf : Name)
    (nbyte : UInt32) (ret : Int) (s' : Fs) : Prop where
  returns : ret = signed nbyte
  bytes : ∀ i < nbyte.toNat, s'.image (writeStart s k lfd + i).toNat = buf.getD i 0
  frame : ∀ x : Nat, x < writeStart s k lfd ∨ writeStart s k lfd + nbyte.toNat ≤ x →
    s'.image x = s.image x
  length : ((s'.headers lfd).length.toNat : Int) =
    max ↑(s.headers lfd).length.toNat ((s.descriptors k).curPos + nbyte.toNat)
  headers : s'.headers = update s.headers lfd
    { s.headers lfd with length := (s'.headers lfd).length }
  fits : ∀ tmp h', Kheap.kmalloc heap h buf.length = .ok (tmp, h') →
    buf.length + 1 ≤ blockSize h'.mem tmp

def WritesExactly (heap : HeapArea) (h : HeapState) (s : Fs) (fildes : Int) (buf : Name)
    (nbyte : UInt32) : Prop :=
  ∃ k lfd ret s' h', lookup s fildes = .ok (k, lfd) ∧
    initrdWriteCopy heap h s fildes buf nbyte = .ok (ret, s', h') ∧
    WritesBytes heap h s k lfd buf nbyte ret s'

theorem initrdWriteCopy_ok {ret : Int} {s' : Fs} {h' : HeapState}
    (done : initrdWriteCopy heap h s fildes buf nbyte = .ok (ret, s', h')) (some : nbyte ≠ 0) :
    ∃ memory, initrdWrite s memory fildes buf nbyte = .ok (ret, s') := by
  rw [initrdWriteCopy, if_neg some] at done
  cases asked : Kheap.kmalloc heap h buf.length with
  | error halt =>
    rw [asked] at done
    cases done
  | ok block =>
    obtain ⟨tmp, h₁⟩ := block
    rw [asked] at done
    refine ⟨fun i => strcpy h₁.mem tmp buf (tmp + i), ?_⟩
    cases written : initrdWrite s (fun i => strcpy h₁.mem tmp buf (tmp + i)) fildes buf nbyte with
    | error halt =>
      simp only [Except.mapError, bind, Except.bind, written] at done
      cases done
    | ok answer =>
      simp only [Except.mapError, bind, Except.bind, written] at done
      split at done
      · cases done
      · cases done
        rfl

theorem signed_succ_ne (n : UInt32) : signed (n + 1) ≠ signed n := by
  intro same
  have bits := BitVec.eq_of_toInt_eq same
  have words : n + 1 = n := UInt32.toBitVec_inj.mp bits
  simp at words

/-- No write of at least one byte is exact: the answer counts one byte too many. -/
theorem not_writesExactly (enough : nbyte.toNat ≤ buf.length) (some : nbyte ≠ 0) :
    ¬ WritesExactly heap h s fildes buf nbyte := by
  rintro ⟨k, lfd, ret, s', h', -, done, exactly⟩
  obtain ⟨memory, written⟩ := initrdWriteCopy_ok done some
  obtain ⟨-, -, -, answer, -⟩ := initrdWrite_effect written some enough
  exact signed_succ_ne nbyte (answer.symm.trans exactly.returns)

def freshHeap : HeapState := kheapInit pageHeap fun _ => 0

theorem not_writesExactly_letter :
    ¬ WritesExactly pageHeap freshHeap (openedFile 1) 0 [120] 1 :=
  not_writesExactly (by decide) (by decide)

def sixteenLetters : Name := List.replicate 16 120

theorem write_sixteen :
    (∃ s' h', initrdWriteCopy pageHeap freshHeap (openedFile 1) 0 sixteenLetters 16 =
      .ok (17, s', h') ∧ (s'.headers 1).length = 19) ∧
    (∃ tmp h', Kheap.kmalloc pageHeap freshHeap 16 = .ok (tmp, h') ∧ blockSize h'.mem tmp = 16) ∧
    ¬ WritesExactly pageHeap freshHeap (openedFile 1) 0 sixteenLetters 16 := by
  have written :
      (initrdWriteCopy pageHeap freshHeap (openedFile 1) 0 sixteenLetters 16).toOption.map
        (fun r => (r.1, (r.2.1.headers 1).length)) = some (17, 19) := by decide
  have asked : (Kheap.kmalloc pageHeap freshHeap 16).toOption.map (fun r => blockSize r.2.mem r.1) =
      some 16 := by decide
  cases done : initrdWriteCopy pageHeap freshHeap (openedFile 1) 0 sixteenLetters 16 with
  | error halt =>
    rw [done] at written
    cases written
  | ok answer =>
    obtain ⟨ret, s', h'⟩ := answer
    rw [done] at written
    obtain ⟨rfl, length⟩ := Prod.mk.inj (Option.some.inj written)
    refine ⟨⟨s', h', rfl, length⟩, ?_, ?_⟩
    · cases block : Kheap.kmalloc pageHeap freshHeap 16 with
      | error halt =>
        rw [block] at asked
        cases asked
      | ok answer =>
        rw [block] at asked
        exact ⟨answer.1, answer.2, rfl, Option.some.inj asked⟩
    · rintro ⟨k, lfd, ret, s₁, h₁, -, done', exactly⟩
      obtain ⟨rfl, -⟩ := Prod.mk.inj (Except.ok.inj (done.symm.trans done'))
      exact absurd exactly.returns (by decide)

end Elaborato.Mentos.Initrd
