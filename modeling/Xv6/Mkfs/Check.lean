/-
  Xv6.Mkfs.Check — is the image that `mkfs` writes consistent?

  Every inode has its blocks, the free map marks the metadata and the blocks of inodes,
  each of which is in one place, and link counts are right. This holds but for two things
  (`image_consistent_iff`). The size of the root directory is rounded up by a whole block
  where its entries end with one, and no block is there: a directory of 32, 64, ... entries
  ends in a hole (`thirty_files_leave_a_hole`). And a file may get the name `.`.
-/

import Xv6.Mkfs.Format

namespace Xv6.Mkfs.Check

open Xv6.Fs Image Blocks Contents

variable {P : Type}

def entries (s : Store P) (dp : Nat) : List (List UInt8) :=
  (List.range ((s.inode dp).size / direntSize)).map fun k => bytes (s.inode dp) s.data (direntSize * k) direntSize

/-- An entry other than `.` for inode `i`. -/
def names (i : Nat) (de : List UInt8) : Bool := deInum de = i && namecmp (de.drop 2) Namespace.dot ≠ 0

/-- The entries other than `.` for inode `i`, in all directories. -/
def links (sb : Super) (s : Store P) (i : Nat) : Nat :=
  ∑ dp ∈ Finset.range sb.ninodes, if (s.inode dp).type = some .dir then (entries s dp).countP (names i) else 0

structure Consistent (sb : Super) (s : Store P) : Prop where
  dense : ∀ i, i < sb.ninodes → ∀ bn, bn < nblk (s.inode i) → blockAt (s.inode i) s.data bn ≠ 0
  marked : ∀ b, b < sb.size → (s.bitmap b = true ↔ b < sb.size - sb.nblocks ∨ ∃ x, x.1 < sb.ninodes ∧ Refers s b x)
  once : ∀ b x y, b ≠ 0 → x.1 < sb.ninodes → y.1 < sb.ninodes → Refers s b x → Refers s b y → x = y
  data : ∀ b x, b ≠ 0 → x.1 < sb.ninodes → Refers s b x → sb.size - sb.nblocks ≤ b ∧ b < sb.size
  links : ∀ i, i < sb.ninodes → (s.inode i).type ≠ none → (s.inode i).nlink = links sb s i

section Image

variable {m : Disk} {files : List Input} (h : Finished m files)

include h

theorem node_cases (i : Nat) :
    i = rootIno ∨ (∃ k f, i = k + 2 ∧ files[k]? = some f) ∨ nodeOf m i = Dinode.blank none := by
  by_cases hu : i = 0 ∨ files.length + 1 < i
  · exact .inr (.inr (h.unused i hu))
  · by_cases e : i = rootIno
    · exact .inl e
    · unfold rootIno at e
      have hlt : i - 2 < files.length := by omega
      exact .inr (.inl ⟨i - 2, files[i - 2], by omega, List.getElem?_eq_getElem hlt⟩)

theorem file_node {k : Nat} {f : Input} (hf : files[k]? = some f) :
    ∃ a, nodeOf m (k + 2) = ⟨some .file, 0, 0, 1, f.contents.length, a⟩ := h.file k _ (by simp [hf])

/-- A file has its blocks; the root has them if its entries do not end with a block. -/
theorem dense_iff :
    (∀ i, i < ninodes → ∀ bn, bn < nblk (nodeOf m i) → blockAt (nodeOf m i) m bn ≠ 0) ↔ (files.length + 2) % 32 ≠ 0 := by
  obtain ⟨a, hroot⟩ := h.root
  have hfull : Full (nodeOf m rootIno) m (upto (rootBytes files).length) := (h.holds 0 _ rfl).shape.full
  have hsize : (nodeOf m rootIno).size = ((rootBytes files).length / bsize + 1) * bsize := by rw [hroot]
  have hblocks : nblk (nodeOf m rootIno) = (rootBytes files).length / bsize + 1 := by
    unfold nblk bsize at *; rw [hsize]; omega
  have hlen := rootBytes_length files
  unfold direntSize at hlen
  constructor
  · intro hd
    have := (hfull _).mp (hd rootIno (by decide) ((rootBytes files).length / bsize) (by omega))
    unfold upto bsize at this
    omega
  · intro hmod i hi bn hbn
    rcases node_cases h i with rfl | ⟨k, f, rfl, hf⟩ | hblank
    · refine (hfull bn).mpr ?_
      rw [hblocks] at hbn
      unfold upto bsize at *
      omega
    · obtain ⟨a, hfile⟩ := file_node h hf
      refine ((h.holds (k + 1) f.contents (by simp [hf])).shape.full bn).mpr ?_
      rw [nblk, hfile] at hbn
      exact hbn
    · rw [hblank, nblk] at hbn
      exact absurd hbn (by simp [Dinode.blank, bsize])

theorem entry_names (ha : Accepted files) {i k : Nat} (hi : i ≠ 0) :
    names i (bytes (nodeOf m rootIno) m (direntSize * k) direntSize) = true ↔
      i = k ∧ ∃ name, nameAt files k = some name ∧ namecmp name Namespace.dot ≠ 0 := by
  cases hn : nameAt files k with
  | none =>
    have hk : files.length + 2 ≤ k := by
      rcases k with _ | _ | k
      · simp [nameAt] at hn
      · simp [nameAt] at hn
      · have : files[k]? = none := by simpa [nameAt] using hn
        have := List.getElem?_eq_none_iff.mp this
        omega
    rw [h.entry_none hk]
    refine iff_of_false (fun e => hi ?_) (by simp)
    simp only [names, Bool.and_eq_true, decide_eq_true_eq] at e
    rw [← e.1]
    rfl
  | some name =>
    have hk : (rootEntries files)[k]? = some (entry (max k 1) name) := by rw [rootEntries_getElem?, hn]; rfl
    have hlt : k < files.length + 2 := by rw [← rootEntries_length]; exact (List.getElem?_eq_some_iff.mp hk).1
    have hcount := ha.count
    have hcmp : namecmp (strncpy name dirSiz) Namespace.dot = 0 ↔ namecmp name Namespace.dot = 0 := by
      rw [namecmp_eq_zero, namecmp_eq_zero, key_strncpy]
    rw [h.entry hk]
    simp only [names, entry, deInum_bytes, List.drop_succ_cons, List.drop_zero, Bool.and_eq_true, decide_eq_true_eq, ne_eq,
      hcmp, Option.some.injEq, exists_eq_left']
    have hmod : max k 1 % 65536 = max k 1 := by unfold ninodes at hcount; omega
    rw [hmod]
    constructor
    · intro hk
      obtain ⟨h1, h2⟩ := hk
      refine ⟨?_, h2⟩
      by_cases e : k = 0
      · -- the directory's own entry
        subst e
        cases hn
        exact absurd (by decide) h2
      · omega
    · intro hk
      obtain ⟨h1, h2⟩ := hk
      exact ⟨by omega, h2⟩

/-- The number of entries for an inode. -/
theorem count_names (ha : Accepted files) {i : Nat} (hi : i ≠ 0) (hlt : i < files.length + 2) :
    ((List.range ((nodeOf m rootIno).size / direntSize)).map fun k => bytes (nodeOf m rootIno) m (direntSize * k)
      direntSize).countP (names i) = if (∃ name, nameAt files i = some name ∧ namecmp name Namespace.dot ≠ 0) then 1 else 0 := by
  obtain ⟨a, hroot⟩ := h.root
  have hsize : i < (nodeOf m rootIno).size / direntSize := by
    have hlen := rootBytes_length files
    rw [hroot]
    show i < ((rootBytes files).length / bsize + 1) * bsize / direntSize
    unfold bsize direntSize at *
    omega
  have hcount : ∀ n, ((List.range n).map fun k => bytes (nodeOf m rootIno) m (direntSize * k) direntSize).countP (names i) =
      if i < n ∧ (∃ name, nameAt files i = some name ∧ namecmp name Namespace.dot ≠ 0) then 1 else 0 := by
    intro n
    induction n with
    | zero => simp
    | succ n ih =>
      rw [List.range_succ, List.map_append, List.countP_append, ih, List.map_singleton, List.countP_singleton]
      have hn := entry_names h ha (k := n) hi
      by_cases e : i = n
      · subst e
        simp only [true_and] at hn
        rw [if_neg (by omega)]
        by_cases hname : ∃ name, nameAt files i = some name ∧ namecmp name Namespace.dot ≠ 0
        · rw [if_pos (hn.mpr hname), if_pos ⟨by omega, hname⟩]
        · rw [if_neg (fun e => hname (hn.mp e)), if_neg (fun e => hname e.2)]
      · rw [if_neg (show ¬ names i _ = true from fun e' => e (hn.mp e').1), Nat.add_zero]
        have : i < n + 1 ↔ i < n := by omega
        simp only [this]
  rw [hcount]
  simp [hsize]

theorem links_eq (ha : Accepted files) {i : Nat} (hi : i ≠ 0) (hlt : i < files.length + 2) :
    links superblock (mounted P m) i =
      if (∃ name, nameAt files i = some name ∧ namecmp name Namespace.dot ≠ 0) then 1 else 0 := by
  have hn : superblock.ninodes = ninodes := rfl
  unfold links
  rw [hn, Finset.sum_eq_single rootIno]
  · rw [h.inode (by decide), if_pos (by obtain ⟨a, e⟩ := h.root; rw [e])]
    unfold entries
    rw [h.inode (by decide)]
    exact count_names h ha hi hlt
  · intro dp hdp hne
    rw [if_neg]
    rw [h.inode (Finset.mem_range.mp hdp)]
    intro ht
    rcases node_cases h dp with e | ⟨k, f, rfl, hf⟩ | e
    · exact hne e
    · obtain ⟨a, e⟩ := file_node h hf
      rw [e] at ht
      cases ht
    · rw [e] at ht
      cases ht
  · intro hno
    exact absurd (Finset.mem_range.mpr (by decide)) hno

theorem links_iff (ha : Accepted files) :
    (∀ i, i < ninodes → (nodeOf m i).type ≠ none → (nodeOf m i).nlink = links superblock (mounted P m) i) ↔
      ∀ f ∈ files, namecmp f.name Namespace.dot ≠ 0 := by
  have hcount := ha.count
  constructor
  · intro hl f hf
    obtain ⟨k, hk⟩ := List.mem_iff_getElem?.mp hf
    have hklt := (List.getElem?_eq_some_iff.mp hk).1
    obtain ⟨a, hnode⟩ := file_node h hk
    have := hl (k + 2) (by unfold ninodes at *; omega) (by rw [hnode]; exact Option.some_ne_none _)
    rw [links_eq h ha (by omega) (by omega), hnode] at this
    by_contra hdot
    rw [if_neg ?_] at this
    · cases this
    · intro ⟨name, hname, hne⟩
      have : name = f.name := by simpa [nameAt, hk] using hname.symm
      rw [this] at hne
      exact hne hdot
  · intro hnames i hi ht
    rcases node_cases h i with rfl | ⟨k, f, rfl, hf⟩ | e
    · obtain ⟨a, hroot⟩ := h.root
      rw [links_eq h ha (by decide) (by unfold rootIno; omega), hroot, if_pos ⟨_, rfl, by decide⟩]
      rfl
    · have hklt := (List.getElem?_eq_some_iff.mp hf).1
      obtain ⟨a, hnode⟩ := file_node h hf
      rw [links_eq h ha (by omega) (by omega), hnode, if_pos ⟨f.name, by simp [nameAt, hf], hnames f (List.mem_of_getElem? hf)⟩]
      rfl
    · rw [e] at ht
      exact absurd rfl ht

theorem refers_iff {b : Nat} {x : Nat × Slot} (hb : b ≠ 0) (hx : x.1 < ninodes) :
    Refers (mounted P m) b x ↔ ptr (nodeOf m x.1) m x.2 = b := by
  unfold Refers
  rw [h.inode hx]
  refine ⟨fun e => e.2, fun e => ⟨fun ht => ?_, e⟩⟩
  rcases node_cases h x.1 with e' | ⟨k, f, e', hf⟩ | e'
  · obtain ⟨a, hroot⟩ := h.root
    rw [e', hroot] at ht
    cases ht
  · obtain ⟨a, hfile⟩ := file_node h hf
    rw [e', hfile] at ht
    cases ht
  · rw [e', ptr_blank fun _ => rfl] at e
    exact hb e.symm

theorem consistent_iff (ha : Accepted files) : Consistent (readsb m) (mounted P m) ↔
    (files.length + 2) % 32 ≠ 0 ∧ ∀ f ∈ files, namecmp f.name Namespace.dot ≠ 0 := by
  have hsb := h.readsb
  have hn : superblock.ninodes = ninodes := rfl
  have hmeta : superblock.size - superblock.nblocks = nmeta := by decide
  have hsize : superblock.size = fsSize := rfl
  have hpos : 0 < nmeta := by decide
  have hfit := ha.fit
  have hdata : (mounted P m).data = m := rfl
  rw [hsb]
  constructor
  · intro hc
    refine ⟨(dense_iff h).mp fun i hi bn hbn => ?_, (links_iff (P := P) h ha).mp fun i hi ht => ?_⟩
    · have := hc.dense i hi bn (by rw [h.inode hi]; exact hbn)
      rwa [h.inode hi] at this
    · have := hc.links i hi (by rw [h.inode hi]; exact ht)
      rwa [h.inode hi] at this
  · intro ⟨hmod, hnames⟩
    have hd := (dense_iff h).mpr hmod
    have hl := (links_iff (P := P) h ha).mpr hnames
    refine ⟨fun i hi => ?_, fun b hb => ?_, fun b x y hb hx hy hbx hby => ?_, fun b x hb hx hbx => ?_, fun i hi => ?_⟩
    · rw [h.inode hi]; exact hd i hi
    · rw [h.bitmapAt ha hb, decide_eq_true_eq, hmeta]
      constructor
      · intro hlt
        by_cases e : b < nmeta
        · exact .inl e
        · obtain ⟨i, x, hx⟩ := h.books.onto b (by omega) hlt
          have hi : i < ninodes := by
            by_contra hi
            rw [nodeOf, if_neg hi, ptr_blank fun _ => rfl] at hx
            omega
          exact .inr ⟨(i, x), hi, (refers_iff h (by omega) hi).mpr hx⟩
      · intro hor
        rcases hor with e | ⟨x, hx, hbx⟩
        · omega
        · by_cases hb0 : b = 0
          · omega
          · rw [refers_iff h hb0 hx] at hbx
            have := (h.books.range x.1 x.2 (by rw [hbx]; exact hb0)).2
            rwa [hbx] at this
    · rw [refers_iff h hb hx] at hbx
      rw [refers_iff h hb hy] at hby
      obtain ⟨e1, e2⟩ := h.books.inj x.1 x.2 y.1 y.2 (by rw [hbx]; exact hb) (hbx.trans hby.symm)
      exact Prod.ext e1 e2
    · rw [refers_iff h hb hx] at hbx
      have := h.books.range x.1 x.2 (by rw [hbx]; exact hb)
      rw [hbx] at this
      rw [hmeta, hsize]
      omega
    · rw [h.inode hi]; exact hl i hi

end Image

/-- `mkfs` writes a consistent image exactly if the root directory does not come to a whole
    number of blocks and no file gets the name `.`. -/
theorem image_consistent_iff (files : List Input) (h : Accepted files) : ∃ m, mkfs files = .ok m ∧
    (Consistent (readsb m) (mounted P m) ↔
      (files.length + 2) % 32 ≠ 0 ∧ ∀ f ∈ files, namecmp f.name Namespace.dot ≠ 0) := by
  obtain ⟨m, hm, hi⟩ := mkfs_image h
  exact ⟨m, hm, consistent_iff hi h⟩

/-! ## Thirty empty files -/

/-- An empty file named by one letter. -/
def emptyFile (c : UInt8) (h : c ≠ 0) : Input := ⟨[c], by simpa using h.symm, []⟩

/-- `n` empty files, `A`, `B`, ... -/
def emptyFiles (n : Nat) : List Input :=
  (List.range n).map fun k => if h : UInt8.ofNat (65 + k) ≠ 0 then emptyFile (UInt8.ofNat (65 + k)) h else ⟨[], by simp, []⟩

theorem emptyFiles_contents (n : Nat) : (emptyFiles n).map Input.contents = List.replicate n [] := by
  rw [List.eq_replicate_iff]
  refine ⟨by simp [emptyFiles], fun c hc => ?_⟩
  simp only [emptyFiles, List.map_map, List.mem_map, List.mem_range, Function.comp] at hc
  obtain ⟨k, _, rfl⟩ := hc
  split <;> rfl

theorem emptyFiles_accepted {n : Nat} (hn : n ≤ 30) : Accepted (emptyFiles n) := by
  have hlen : (emptyFiles n).length = n := by simp [emptyFiles]
  refine ⟨fun f hf => ?_, fun f hf => ?_, by rw [hlen]; unfold ninodes; omega, ?_⟩
  · obtain ⟨k, hk, rfl⟩ := List.mem_map.mp hf
    rw [List.mem_range] at hk
    split
    · simp only [emptyFile, List.mem_singleton, Namespace.slash]
      intro e
      have := congrArg UInt8.toNat e
      simp at this
      omega
    · simp
  · have : f.contents ∈ (emptyFiles n).map Input.contents := List.mem_map_of_mem hf
    rw [emptyFiles_contents] at this
    rw [List.eq_of_mem_replicate this]
    exact Nat.zero_le _
  · have ht : total (List.replicate n []) = 0 := by
      simp [total, show blk (upto 0) = 0 by decide]
    have hroot : blk (upto (rootBytes (emptyFiles n)).length) ≤ blk (upto 512) := by
      refine blk_mono (upto_mono ?_)
      rw [rootBytes_length, hlen]
      unfold direntSize
      omega
    rw [emptyFiles_contents, show total (rootBytes (emptyFiles n) :: List.replicate n []) =
      blk (upto (rootBytes (emptyFiles n)).length) + total (List.replicate n []) by simp [total], ht]
    calc nmeta + (blk (upto (rootBytes (emptyFiles n)).length) + 0) ≤ nmeta + (blk (upto 512) + 0) := by omega
      _ ≤ fsSize := by decide

theorem thirty_files_leave_a_hole : Accepted (emptyFiles 30) ∧
    ∃ m, mkfs (emptyFiles 30) = .ok m ∧ ¬ Consistent (readsb m) (mounted Unit m) := by
  have ha := emptyFiles_accepted (n := 30) le_rfl
  obtain ⟨m, hm, hi⟩ := mkfs_image ha
  refine ⟨ha, m, hm, fun hc => ((consistent_iff hi ha).mp hc).1 ?_⟩
  simp [emptyFiles]

theorem image_consistent_iff_one_file : ∃ m, mkfs (emptyFiles 1) = .ok m ∧
    (Consistent (readsb m) (mounted Unit m) ↔
      ((emptyFiles 1).length + 2) % 32 ≠ 0 ∧ ∀ f ∈ emptyFiles 1, namecmp f.name Namespace.dot ≠ 0) :=
  image_consistent_iff (emptyFiles 1) (emptyFiles_accepted (by decide))

end Xv6.Mkfs.Check
