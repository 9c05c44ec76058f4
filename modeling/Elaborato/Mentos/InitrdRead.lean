import Elaborato.Mentos.InitrdDescriptors

/-!
Reading in pieces: `initfs_read` answers with the end of file as soon as it is reached.
-/
namespace Elaborato.Mentos.Initrd
open Foundation List Function

variable {image : Nat → UInt8} {fileStart : Nat}

variable {w : UInt32}

theorem signed_of_lt (low : w.toNat < 2 ^ 31) : signed w = w.toNat := by
  rw [signed, BitVec.toInt_eq_toNat_cond]
  exact if_pos (by simp only [UInt32.toNat_toBitVec]; omega)

theorem signed_of_le (high : 2 ^ 31 ≤ w.toNat) : signed w = w.toNat - 2 ^ 32 := by
  rw [signed, BitVec.toInt_eq_toNat_cond, if_neg (by simp only [UInt32.toNat_toBitVec]; omega)]
  simp

theorem readLoop_ended {size pos : Int} (ended : size ≤ pos) (n it : Nat) (buf : Nat → UInt8) :
    readLoop image fileStart size n it pos buf = (pos, buf) := by
  cases n with
  | zero => rfl
  | succ n => rw [readLoop, if_neg (by omega)]

theorem readLoop_spec {size pos : Nat} (inside : pos ≤ size) (n it : Nat) (buf : Nat → UInt8) :
    readLoop image fileStart size n it pos buf = (((min (pos + n) size : Nat) : Int), fun i =>
      if it ≤ i ∧ i < it + (min (pos + n) size - pos) then image (fileStart + pos + (i - it))
      else buf i) := by
  induction n generalizing it pos buf with
  | zero =>
    have none : ∀ i, ¬ (it ≤ i ∧ i < it + (min (pos + 0) size - pos)) := by omega
    simp only [none, if_false]
    rw [readLoop, Nat.add_zero, Nat.min_eq_left inside]
  | succ n ih =>
    by_cases more : pos < size
    · have step : ((pos : Int) + 1) = (pos + 1 : Nat) := by omega
      rw [readLoop, if_pos (by omega), step, ih (by omega)]
      have same : pos + 1 + n = pos + (n + 1) := by omega
      rw [same]
      refine congrArg (Prod.mk _) (funext fun i => ?_)
      by_cases first : i = it
      · subst first
        rw [if_neg (by omega), update_self, if_pos (by omega), Nat.sub_self]
        rfl
      · by_cases later : it ≤ i ∧ i < it + (min (pos + (n + 1)) size - pos)
        · rw [if_pos (by omega), if_pos later]
          congr 1
          omega
        · rw [if_neg (by omega), if_neg later, update_of_ne first]
    · have last : pos = size := by omega
      subst last
      rw [readLoop_ended (Int.le_refl _)]
      have none : ∀ i, ¬ (it ≤ i ∧ i < it + (min (pos + (n + 1)) pos - pos)) := by omega
      simp only [none, if_false]
      rw [Nat.min_eq_right (by omega)]

structure Piece where
  nbyte : UInt32
  ret : Int
  buf : Nat → UInt8

def readAll (fd : Nat) : List (UInt32 × (Nat → UInt8)) → Vfs → Except FsHalt (List Piece)
  | [], _ => .ok []
  | (nbyte, buf) :: reads, v => do
      let (ret, buf', v') ← sysRead v fd buf nbyte
      let later ← readAll fd reads v'
      .ok (⟨nbyte, ret, buf'⟩ :: later)

def Piece.bytes (p : Piece) : List UInt8 :=
  if p.ret = eof then [] else (List.range p.ret.toNat).map p.buf

def delivered (pieces : List Piece) : List UInt8 := pieces.flatMap Piece.bytes

/-- The bytes of a file. -/
def content (s : Fs) (it : Nat) : List UInt8 :=
  (List.range (s.headers it).length.toNat).map fun i => s.image ((s.headers it).offset.toNat + i)

structure GivesFile (file : List UInt8) (pieces : List Piece) : Prop where
  counted : ∀ p ∈ pieces, p.ret = eof ∨ 0 ≤ p.ret ∧ p.ret ≤ p.nbyte.toNat
  part : delivered pieces <+: file
  whole : (∃ p ∈ pieces, p.nbyte ≠ 0 ∧ p.ret = eof) → delivered pieces = file

def answer (size : Int) (nbyte : UInt32) (pos : Int) : Int :=
  if pos = size then eof else signed nbyte

def piecesFrom (image : Nat → UInt8) (fileStart : Nat) (size : Int) :
    Int → List (UInt32 × (Nat → UInt8)) → List Piece
  | _, [] => []
  | pos, (nbyte, buf) :: reads =>
    if nbyte = 0 then ⟨0, 0, buf⟩ :: piecesFrom image fileStart size pos reads
    else
      let after := readLoop image fileStart size nbyte.toNat 0 pos buf
      ⟨nbyte, answer size nbyte after.1, after.2⟩ ::
        piecesFrom image fileStart size after.1 reads

structure Positioned (s : Fs) (fd it : Nat) (pos : Int) (v : Vfs) : Prop where
  same : v.fs.headers = s.headers ∧ v.fs.image = s.image
  below : fd < maxOpenFd
  file : it < maxFiles
  mounted : (v.fdList fd).mountpointId = 0
  entry : ∃ k < maxInitrdDescriptors, (v.fdList fd).fsSpecId = (k : Nat) ∧
    v.fs.descriptors k = ⟨it, pos⟩

variable {s : Fs} {v : Vfs} {fd it : Nat} {pos : Int}

theorem lookup_positioned (positioned : Positioned s fd it pos v) :
    ∃ k : Nat, lookup v.fs (v.fdList fd).fsSpecId = .ok (k, it) ∧ k < maxInitrdDescriptors ∧
      (v.fdList fd).fsSpecId = k ∧ v.fs.descriptors k = ⟨it, pos⟩ := by
  obtain ⟨k, below, id, entry⟩ := positioned.entry
  have file := positioned.file
  refine ⟨k, ?_, below, id, entry⟩
  simp only [lookup, id, Int.toNat_natCast, entry]
  rw [if_pos (by omega), if_pos (by omega)]

variable {nbyte : UInt32}

theorem initfsRead_eq {fildes : Int} {k : Nat} (found : lookup s fildes = .ok (k, it))
    (some : nbyte ≠ 0) (buf : Nat → UInt8) :
    let size := signed (s.headers it).length
    let after := readLoop s.image (s.headers it).offset.toNat size nbyte.toNat 0
      (s.descriptors k).curPos buf
    initfsRead s fildes buf nbyte = .ok (answer size nbyte after.1, after.2,
      { s with descriptors := update s.descriptors k ⟨it, after.1⟩ }) := by
  intro size after
  simp only [initfsRead, if_neg some, found]
  by_cases ended : after.1 = size
  · rw [answer, if_pos ended]
    exact if_pos ended
  · rw [answer, if_neg ended]
    exact if_neg ended

theorem sysRead_positioned (positioned : Positioned s fd it pos v) (some : nbyte ≠ 0)
    (buf : Nat → UInt8) :
    let size := signed (s.headers it).length
    let after := readLoop s.image (s.headers it).offset.toNat size nbyte.toNat 0 pos buf
    ∃ v', sysRead v fd buf nbyte = .ok (answer size nbyte after.1, after.2, v') ∧
      Positioned s fd it after.1 v' := by
  obtain ⟨k, found, below, id, entry⟩ := lookup_positioned positioned
  have mounted := positioned.mounted
  obtain ⟨headers, image⟩ := positioned.same
  intro size after
  have read := initfsRead_eq found some buf
  rw [headers, image, entry] at read
  refine ⟨{ v with fs := { v.fs with
    headers := s.headers
    image := s.image
    descriptors := update v.fs.descriptors k ⟨it, after.1⟩ } }, ?_, ?_⟩
  · unfold sysRead
    rw [if_neg (by have := positioned.below; omega), if_neg (by rw [mounted]; decide), mounted]
    simp only [hasOperations, Int.toNat_zero, BEq.rfl, if_true, read]
    rfl
  · exact ⟨⟨rfl, rfl⟩, positioned.below, positioned.file, mounted, ⟨k, below, id, update_self ..⟩⟩

theorem readAll_positioned (positioned : Positioned s fd it pos v)
    (reads : List (UInt32 × (Nat → UInt8))) :
    readAll fd reads v = .ok (piecesFrom s.image (s.headers it).offset.toNat
      (signed (s.headers it).length) pos reads) := by
  induction reads generalizing pos v with
  | nil => rfl
  | cons read reads ih =>
    obtain ⟨nbyte, buf⟩ := read
    by_cases none : nbyte = 0
    · subst none
      have skipped : sysRead v fd buf 0 = .ok (0, buf, v) := by
        have below := positioned.below
        unfold sysRead
        rw [if_neg (by omega), if_neg (by rw [positioned.mounted]; decide), positioned.mounted]
        rfl
      rw [readAll, skipped, piecesFrom, if_pos rfl]
      show (do let later ← readAll fd reads v; _) = _
      rw [ih positioned]
      rfl
    · obtain ⟨v', done, positioned'⟩ := sysRead_positioned positioned none buf
      rw [readAll, done, piecesFrom, if_neg none]
      show (do let later ← readAll fd reads v'; _) = _
      rw [ih positioned']
      rfl

variable {reads : List (UInt32 × (Nat → UInt8))}

/-- The bytes that the reads ask for. -/
def asked (reads : List (UInt32 × (Nat → UInt8))) : Nat := (reads.map fun r => r.1.toNat).sum

theorem toNat_pos {n : UInt32} (some : n ≠ 0) : 0 < n.toNat :=
  Nat.pos_of_ne_zero fun h => some (UInt32.toNat_inj.mp h)

variable {size : Int}

theorem piecesFrom_cons {pos' : Int} {nbyte : UInt32} {buf buf' : Nat → UInt8} (some : nbyte ≠ 0)
    (after : readLoop image fileStart size nbyte.toNat 0 pos buf = (pos', buf')) :
    piecesFrom image fileStart size pos ((nbyte, buf) :: reads) =
      ⟨nbyte, answer size nbyte pos', buf'⟩ :: piecesFrom image fileStart size pos' reads := by
  rw [piecesFrom, if_neg some, after]

theorem piecesFrom_zero (none : ∀ r ∈ reads, r.1 = 0) :
    piecesFrom image fileStart size pos reads = reads.map fun r => ⟨0, 0, r.2⟩ := by
  induction reads with
  | nil => rfl
  | cons read reads ih =>
    obtain ⟨nbyte, buf⟩ := read
    obtain rfl : nbyte = 0 := none _ mem_cons_self
    rw [piecesFrom, if_pos rfl, ih fun r hr => none r (mem_cons_of_mem _ hr)]
    rfl

attribute [local simp] Piece.bytes content openPos

theorem piecesFrom_ahead {size : Nat} (low : size < 2 ^ 31) (pos : Nat)
    (ahead : pos + asked reads < size) :
    (∀ p ∈ piecesFrom image fileStart size pos reads, p.ret = p.nbyte.toNat) ∧
      delivered (piecesFrom image fileStart size pos reads) =
        (List.range (asked reads)).map fun i => image (fileStart + pos + i) := by
  induction reads generalizing pos with
  | nil => exact ⟨fun p hp => absurd hp not_mem_nil, rfl⟩
  | cons read reads ih =>
    obtain ⟨nbyte, buf⟩ := read
    have total : asked ((nbyte, buf) :: reads) = nbyte.toNat + asked reads := by simp [asked]
    rw [total] at ahead ⊢
    by_cases none : nbyte = 0
    · subst none
      obtain ⟨counted, bytes⟩ := ih pos (by omega)
      rw [piecesFrom, if_pos rfl]
      refine ⟨fun p hp => ?_, ?_⟩
      · rcases mem_cons.mp hp with rfl | hp
        · rfl
        · exact counted p hp
      · rw [delivered, flatMap_cons, ← delivered, bytes]
        simp
    · obtain ⟨counted, bytes⟩ := ih (pos + nbyte.toNat) (by omega)
      have inside : min (pos + nbyte.toNat) size = pos + nbyte.toNat := by omega
      have full : answer size nbyte ((pos + nbyte.toNat : Nat) : Int) = nbyte.toNat := by
        rw [answer, if_neg (by omega), signed_of_lt (by omega)]
      rw [piecesFrom_cons none (readLoop_spec (by omega) _ _ _), inside]
      refine ⟨fun p hp => ?_, ?_⟩
      · rcases mem_cons.mp hp with rfl | hp
        · exact full
        · exact counted p hp
      · rw [delivered, flatMap_cons, ← delivered, bytes, range_add, map_append,
          map_map]
        congr 1
        · simp only [Piece.bytes, full]
          rw [if_neg (by simp only [eof]; omega), Int.toNat_natCast]
          refine map_congr_left fun i hi => ?_
          rw [if_pos (by have := mem_range.mp hi; omega), Nat.sub_zero]
        · refine map_congr_left fun i _ => ?_
          simp only [comp]
          congr 1
          omega

theorem piecesFrom_ended (size : Int) :
    (∀ p ∈ piecesFrom image fileStart size size reads, p.ret = eof ∨ p.ret = 0) ∧
      delivered (piecesFrom image fileStart size size reads) = [] ∧
      ((∃ r ∈ reads, r.1 ≠ 0) →
        ∃ p ∈ piecesFrom image fileStart size size reads, p.nbyte ≠ 0 ∧ p.ret = eof) := by
  induction reads with
  | nil =>
    exact ⟨fun p hp => absurd hp not_mem_nil, rfl, fun ⟨r, hr, _⟩ => absurd hr not_mem_nil⟩
  | cons read reads ih =>
    obtain ⟨nbyte, buf⟩ := read
    obtain ⟨counted, nothing, ended⟩ := ih
    by_cases none : nbyte = 0
    · subst none
      rw [piecesFrom, if_pos rfl, delivered, flatMap_cons, ← delivered, nothing]
      refine ⟨fun p hp => ?_, by simp, ?_⟩
      · rcases mem_cons.mp hp with rfl | hp
        · exact .inr rfl
        · exact counted p hp
      · rintro ⟨r, hr, some⟩
        rcases mem_cons.mp hr with rfl | hr
        · exact absurd rfl some
        · obtain ⟨p, hp, h⟩ := ended ⟨r, hr, some⟩
          exact ⟨p, mem_cons_of_mem _ hp, h⟩
    · have last : answer size nbyte size = eof := if_pos rfl
      rw [piecesFrom_cons none (readLoop_ended (Int.le_refl _) _ _ _), last, delivered,
        flatMap_cons, ← delivered, nothing]
      refine ⟨fun p hp => ?_, by simp, fun _ => ⟨_, mem_cons_self, none, rfl⟩⟩
      rcases mem_cons.mp hp with rfl | hp
      · exact .inl rfl
      · exact counted p hp

theorem piecesFrom_reached {size : Nat} (low : size < 2 ^ 31) (pos : Nat) (before : pos < size)
    (reached : size ≤ pos + asked reads) :
    (∃ p ∈ piecesFrom image fileStart size pos reads, p.nbyte ≠ 0 ∧ p.ret = eof) ∧
      (delivered (piecesFrom image fileStart size pos reads)).length < size - pos := by
  induction reads generalizing pos with
  | nil =>
    simp only [asked, map_nil, sum_nil] at reached
    omega
  | cons read reads ih =>
    obtain ⟨nbyte, buf⟩ := read
    have total : asked ((nbyte, buf) :: reads) = nbyte.toNat + asked reads := by simp [asked]
    rw [total] at reached
    by_cases none : nbyte = 0
    · subst none
      obtain ⟨⟨p, hp, ended⟩, short⟩ := ih pos before (by simpa using reached)
      rw [piecesFrom, if_pos rfl, delivered, flatMap_cons, ← delivered]
      exact ⟨⟨p, mem_cons_of_mem _ hp, ended⟩, by simpa using short⟩
    · rw [piecesFrom_cons none (readLoop_spec (by omega) _ _ _), delivered, flatMap_cons,
        ← delivered]
      by_cases more : pos + nbyte.toNat < size
      · have inside : min (pos + nbyte.toNat) size = pos + nbyte.toNat := by omega
        have full : answer size nbyte ((pos + nbyte.toNat : Nat) : Int) = nbyte.toNat := by
          rw [answer, if_neg (by omega), signed_of_lt (by omega)]
        obtain ⟨⟨p, hp, ended⟩, short⟩ := ih (pos + nbyte.toNat) more (by omega)
        rw [inside]
        refine ⟨⟨p, mem_cons_of_mem _ hp, ended⟩, ?_⟩
        simp only [Piece.bytes, full]
        rw [if_neg (by simp only [eof]; omega), length_append, length_map,
          length_range, Int.toNat_natCast]
        omega
      · have outside : min (pos + nbyte.toNat) size = size := by omega
        have last : answer size nbyte size = eof := if_pos rfl
        rw [outside, last, (piecesFrom_ended _).2.1]
        refine ⟨⟨_, mem_cons_self, none, rfl⟩, ?_⟩
        simp only [Piece.bytes, if_true, append_nil, length_nil]
        omega

theorem piecesFrom_negative (negative : size < 0) :
    piecesFrom image fileStart size 0 reads = reads.map fun r => ⟨r.1, signed r.1, r.2⟩ := by
  induction reads with
  | nil => rfl
  | cons read reads ih =>
    obtain ⟨nbyte, buf⟩ := read
    by_cases none : nbyte = 0
    · subst none
      rw [piecesFrom, if_pos rfl, ih]
      rfl
    · have kept : answer size nbyte 0 = signed nbyte := if_neg (by omega)
      rw [piecesFrom_cons none (readLoop_ended (by omega) _ _ _), kept, ih]
      rfl

variable {v' : Vfs} {cwd path absolute : Name} {flags : UInt32} {fd : Int}

theorem sysOpen_positioned (resolved : absolutePath cwd path = some absolute)
    (found : scanFiles v.fs absolute = .ok (some it))
    (opened : sysOpen cwd path flags v = .ok (fd, v')) (success : fd ≠ -1) :
    Positioned v.fs fd.toNat it (openPos v.fs flags it) v' := by
  obtain ⟨absolute', id, fs, resolved', unused, opened', other, rfl, rfl⟩ :=
    sysOpen_ok opened success
  obtain rfl := Option.some.inj (resolved.symm.trans resolved')
  obtain ⟨below, rfl, rfl⟩ := initfsOpen_existing found opened' other
  refine ⟨⟨rfl, rfl⟩, ?_, scanFiles_lt found, ?_, _, below, ?_, ?_⟩
  · exact (firstUnused_unused unused).1
  · simp
  · simp
  · simp

/-- The reads of an open descriptor. -/
def filePieces (s : Fs) (it : Nat) (flags : UInt32) (reads : List (UInt32 × (Nat → UInt8))) :
    List Piece :=
  piecesFrom s.image (s.headers it).offset.toNat (signed (s.headers it).length)
    (openPos s flags it) reads

theorem givesFile_empty (empty : (s.headers it).length = 0) :
    GivesFile (content s it) (filePieces s it flags reads) := by
  have start : openPos s flags it = signed (s.headers it).length := by
    rw [openPos, empty, ite_eq_left_iff]
    exact fun _ => rfl
  have file : content s it = [] := by simp [empty]
  rw [filePieces, start, file]
  obtain ⟨counted, nothing, -⟩ := piecesFrom_ended (signed (s.headers it).length)
  refine ⟨fun p hp => (counted p hp).imp_right fun zero => ?_, ?_, fun _ => nothing⟩
  · omega
  · exact nothing ▸ nil_prefix

theorem givesFile_zero (none : ∀ r ∈ reads, r.1 = 0) :
    GivesFile (content s it) (filePieces s it flags reads) := by
  rw [filePieces, piecesFrom_zero none]
  refine ⟨fun p hp => .inr ?_, ?_, ?_⟩
  · obtain ⟨r, -, rfl⟩ := mem_map.mp hp
    exact ⟨Int.le_refl 0, Int.natCast_nonneg _⟩
  · have nothing : delivered (reads.map fun r => ⟨0, 0, r.2⟩) = [] := by
      rw [delivered, flatMap_eq_nil_iff]
      intro p hp
      obtain ⟨r, -, rfl⟩ := mem_map.mp hp
      rfl
    rw [nothing]
    exact nil_prefix
  · rintro ⟨p, hp, some, -⟩
    obtain ⟨r, -, rfl⟩ := mem_map.mp hp
    exact absurd rfl some

theorem givesFile_ahead (low : (s.headers it).length.toNat < 2 ^ 31)
    (start : hasFlag flags oAppend = false)
    (ahead : asked reads < (s.headers it).length.toNat) :
    GivesFile (content s it) (filePieces s it flags reads) := by
  have pos : openPos s flags it = (0 : Nat) := by simp [start]
  rw [filePieces, pos, signed_of_lt low]
  obtain ⟨counted, bytes⟩ := piecesFrom_ahead low 0 (by rwa [Nat.zero_add])
  refine ⟨fun p hp => .inr ?_, ?_, ?_⟩
  · rw [counted p hp]
    omega
  · rw [bytes, content, ← Nat.add_sub_of_le (Nat.le_of_lt ahead), range_add, map_append]
    exact prefix_append _ _
  · rintro ⟨p, hp, -, ended⟩
    rw [counted p hp, eof] at ended
    omega

theorem content_length : (content s it).length = (s.headers it).length.toNat := by simp

theorem delivered_stale (nonempty : 0 < (s.headers it).length.toNat)
    (stale : ∀ r ∈ reads, ∀ i, r.2 i ≠ s.image (s.headers it).offset.toNat)
    (part : delivered (reads.map fun r => ⟨r.1, signed r.1, r.2⟩) <+: content s it) :
    delivered (reads.map fun r => ⟨r.1, signed r.1, r.2⟩) = [] := by
  cases bytes : delivered (reads.map fun r => ⟨r.1, signed r.1, r.2⟩) with
  | nil => rfl
  | cons b bs =>
    rw [bytes] at part
    have first : (content s it).head? = some (s.image (s.headers it).offset.toNat) := by
      obtain ⟨n, length⟩ := Nat.exists_eq_succ_of_ne_zero (Nat.pos_iff_ne_zero.mp nonempty)
      simp [length, range_succ_eq_map]
    obtain ⟨rest, file⟩ := part
    rw [← file, cons_append, head?_cons, Option.some.injEq] at first
    have mem : b ∈ delivered (reads.map fun r => ⟨r.1, signed r.1, r.2⟩) := bytes ▸ mem_cons_self
    obtain ⟨p, hp, inPiece⟩ := mem_flatMap.mp mem
    obtain ⟨r, hr, rfl⟩ := mem_map.mp hp
    unfold Piece.bytes at inPiece
    split at inPiece
    · exact absurd inPiece not_mem_nil
    · obtain ⟨i, -, same⟩ := mem_map.mp inPiece
      exact absurd (same.trans first) (stale r hr i)

theorem not_givesFile (some : ∃ r ∈ reads, r.1 ≠ 0)
    (nonempty : 0 < (s.headers it).length.toNat)
    (other : (s.headers it).length.toNat < 2 ^ 31 → hasFlag flags oAppend = false →
      (s.headers it).length.toNat ≤ asked reads)
    (stale : ∀ r ∈ reads, ∀ i, r.2 i ≠ s.image (s.headers it).offset.toNat) :
    ¬ GivesFile (content s it) (filePieces s it flags reads) := by
  rintro ⟨counted, part, whole⟩
  rw [filePieces] at counted part whole
  cases append : hasFlag flags oAppend with
  | true =>
    have start : openPos s flags it = signed (s.headers it).length := by simp [append]
    rw [start] at whole
    obtain ⟨-, nothing, ended⟩ := piecesFrom_ended (signed (s.headers it).length)
    have file := (whole (ended some)).symm.trans nothing
    rw [← length_eq_zero_iff, content_length] at file
    omega
  | false =>
    have start : openPos s flags it = (0 : Nat) := by simp [append]
    rw [start] at counted part whole
    by_cases low : (s.headers it).length.toNat < 2 ^ 31
    · rw [signed_of_lt low] at whole
      obtain ⟨ended, short⟩ := piecesFrom_reached low 0 nonempty
        (by simpa using other low append)
      rw [whole ended, content_length] at short
      omega
    · have negative : signed (s.headers it).length < 0 := by
        rw [signed_of_le (by omega)]
        have := (s.headers it).length.toNat_lt
        omega
      rw [Int.natCast_zero, piecesFrom_negative negative] at counted part whole
      obtain ⟨r, hr, asks⟩ := some
      have mem : (⟨r.1, signed r.1, r.2⟩ : Piece) ∈
          reads.map fun r => ⟨r.1, signed r.1, r.2⟩ := mem_map_of_mem hr
      have nothing := delivered_stale nonempty stale part
      rcases counted _ mem with ended | ⟨positive, -⟩
      · have file := (whole ⟨_, mem, asks, ended⟩).symm.trans nothing
        rw [← length_eq_zero_iff, content_length] at file
        omega
      · have filled := flatMap_eq_nil_iff.mp nothing _ mem
        have below : r.1.toNat < 2 ^ 31 := by
          by_contra high
          have negative := signed_of_le (Nat.le_of_not_lt high)
          have := r.1.toNat_lt
          simp only at positive
          omega
        have count := toNat_pos asks
        simp only [Piece.bytes, signed_of_lt below] at filled
        rw [if_neg (by simp only [eof]; omega), map_eq_nil_iff, Int.toNat_natCast,
          range_eq_nil] at filled
        omega

/-- Reads give the file exactly when they end before its end, or there is nothing to give. -/
theorem givesFile_iff (resolved : absolutePath cwd path = some absolute)
    (found : scanFiles v.fs absolute = .ok (some it))
    (opened : sysOpen cwd path flags v = .ok (fd, v')) (success : fd ≠ -1) (sizes : List UInt32) :
    (∀ reads : List (UInt32 × (Nat → UInt8)), reads.map Prod.fst = sizes →
      ∃ pieces, readAll fd.toNat reads v' = .ok pieces ∧ GivesFile (content v.fs it) pieces) ↔
    (v.fs.headers it).length = 0 ∨ (∀ n ∈ sizes, n = 0) ∨
      (v.fs.headers it).length.toNat < 2 ^ 31 ∧ hasFlag flags oAppend = false ∧
        (sizes.map UInt32.toNat).sum < (v.fs.headers it).length.toNat := by
  have positioned := sysOpen_positioned resolved found opened success
  constructor
  · intro gives
    by_contra no
    obtain ⟨nonempty, some, other⟩ := not_or.mp no |>.imp_right not_or.mp
    let byte := v.fs.image (v.fs.headers it).offset.toNat
    let reads : List (UInt32 × (Nat → UInt8)) := sizes.map fun n => (n, fun _ => byte + 1)
    have asks : asked reads = (sizes.map UInt32.toNat).sum := by
      simp only [asked, reads, map_map]
      rfl
    obtain ⟨pieces, done, file⟩ := gives reads (by simp [reads, comp_def])
    rw [readAll_positioned positioned] at done
    cases done
    refine not_givesFile ?_ (toNat_pos nonempty) (fun low start => ?_) ?_ file
    · simp only [not_forall] at some
      obtain ⟨n, hn, asks⟩ := some
      exact ⟨_, mem_map_of_mem hn, asks⟩
    · rw [asks]
      exact Nat.le_of_not_lt fun less => other ⟨low, start, less⟩
    · intro r hr i same
      obtain ⟨n, -, rfl⟩ := mem_map.mp hr
      have next : byte + 1 ≠ byte := by simp
      exact next same
  · rintro cond reads rfl
    refine ⟨_, readAll_positioned positioned reads, ?_⟩
    have asks : ((reads.map Prod.fst).map UInt32.toNat).sum = asked reads := by
      rw [asked, map_map]
      rfl
    rcases cond with empty | zero | ⟨low, start, ahead⟩
    · exact givesFile_empty empty
    · exact givesFile_zero fun r hr => zero _ (mem_map_of_mem hr)
    · exact givesFile_ahead low start (asks ▸ ahead)

/-- One read of the two bytes of the file. -/
def wholeRead : List (UInt32 × (Nat → UInt8)) := [(2, fun _ => 0)]

theorem givesFile_iff_openA : ∃ v', sysOpen [slash] [slash, 97] 0 oneFileRun.vfs = .ok (0, v') ∧
    ∀ reads : List (UInt32 × (Nat → UInt8)), reads.map Prod.fst = [1] →
      ∃ pieces, readAll 0 reads v' = .ok pieces ∧ GivesFile [0, 0] pieces := by
  have resolved : absolutePath [slash] [slash, 97] = some [slash, 97] := rfl
  have found : scanFiles oneFileRun.vfs.fs [slash, 97] = .ok (some 0) := rfl
  obtain ⟨v', opened⟩ : ∃ v', sysOpen [slash] [slash, 97] 0 oneFileRun.vfs = .ok (0, v') :=
    ⟨_, rfl⟩
  have ahead : (oneFileRun.vfs.fs.headers 0).length.toNat < 2 ^ 31 ∧
      hasFlag 0 oAppend = false ∧
      (List.map UInt32.toNat [1]).sum < (oneFileRun.vfs.fs.headers 0).length.toNat := by decide
  exact ⟨v', opened,
    (givesFile_iff resolved found opened (by decide) [1]).mpr (.inr (.inr ahead))⟩

theorem not_givesFile_wholeRead : ∃ v' pieces,
    sysOpen [slash] [slash, 97] 0 oneFileRun.vfs = .ok (0, v') ∧
    readAll 0 wholeRead v' = .ok pieces ∧ pieces.map Piece.ret = [eof] ∧
    ¬ GivesFile (content oneFileRun.vfs.fs 0) pieces := by
  refine ⟨_, _, rfl, rfl, rfl, fun gives => ?_⟩
  have file := gives.whole ⟨_, mem_cons_self, by decide, rfl⟩
  exact absurd file (by decide)

end Elaborato.Mentos.Initrd
