import GameCredits.Model.Sha2

/-!
# SHA-256, SHA-512 and HMAC-SHA-512

An object represents what was written as the whole blocks, which are in the state, and the rest, which
is in the buffer (`Represents`). `Write` keeps this (`Represents.write`), whatever the positions are at
which the data is cut, so that `Finalize` gives the digest of the whole message (`digest`,
`Represents.finalize`).
-/

namespace GC

open Framework (Bytes leBytes overwrite blocks blocks_append blocks_single blocks_of_lt take_overwrite)

variable {sha : Sha}

/-! ## The digest of a message -/

/-- The least number of zeros after a message of `n` bytes and `0x80` that leads, with the length, to a
whole number of blocks. -/
def zeros (sha : Sha) (n : Nat) : Nat :=
  (sha.blockSize - (n + 1 + sha.sizeLen) % sha.blockSize) % sha.blockSize

/-- What is put behind a message of `n` bytes: `0x80`, zeros, and the length in bits, which is less than
`2 ^ 64` for messages shorter than `2 ^ 61` bytes. -/
def padding (sha : Sha) (n : Nat) : Bytes :=
  0x80 :: List.replicate (zeros sha n) 0 ++
    (List.replicate (sha.sizeLen - 8) (0 : UInt8) ++ beBytes 8 (8 * n % 2 ^ 64))

/-- The digest of a message in one go. -/
def digest (sha : Sha) (m : Bytes) : Bytes :=
  sha.output ((blocks sha.blockSize (m ++ padding sha m.length)).foldl sha.transform sha.initial)

theorem mod_sub {B t : Nat} (ht : t ≤ 2 * B) : (2 * B - t) % B = (B - t % B) % B := by
  rcases Nat.lt_or_ge t B with hlt | hge
  · rw [Nat.mod_eq_of_lt hlt, show 2 * B - t = B + (B - t) by omega, Nat.add_mod_left]
  · rcases Nat.lt_or_ge t (2 * B) with hlt | hge'
    · rw [Nat.mod_eq_sub_mod hge, Nat.mod_eq_of_lt (show t - B < B by omega)]
      congr 1
      omega
    · obtain rfl : t = 2 * B := Nat.le_antisymm ht hge'
      rw [Nat.sub_self, Nat.zero_mod, Nat.mul_mod_left, Nat.sub_zero, Nat.mod_self]

/-- The padding leads to whole blocks. -/
theorem dvd_zeros (sha : Sha) (n : Nat) : sha.blockSize ∣ n + 1 + zeros sha n + sha.sizeLen := by
  have hB := sha.blockSize_pos
  unfold zeros
  generalize sha.blockSize = B at hB ⊢
  have hdiv := Nat.div_add_mod (n + 1 + sha.sizeLen) B
  have hmod := Nat.mod_lt (n + 1 + sha.sizeLen) hB
  generalize (n + 1 + sha.sizeLen) / B = q at hdiv
  generalize (n + 1 + sha.sizeLen) % B = r at hdiv hmod ⊢
  rcases Nat.eq_zero_or_pos r with rfl | hpos
  · refine ⟨q, ?_⟩
    rw [Nat.sub_zero, Nat.mod_self]
    omega
  · refine ⟨q + 1, ?_⟩
    rw [Nat.mod_eq_of_lt (by omega), Nat.mul_succ]
    omega

theorem length_beBytes (n x : Nat) : (beBytes n x).length = n := by
  rw [beBytes, List.length_reverse, Framework.length_leBytes]

theorem length_padding (sha : Sha) (n : Nat) :
    (padding sha n).length = 1 + zeros sha n + sha.sizeLen := by
  have := sha.sizeLen_le
  simp only [padding, List.length_append, List.length_cons, List.length_replicate, length_beBytes]
  omega

namespace Hasher

variable {h : Hasher sha} {full rest data : Bytes}

/-- `full` was processed in whole blocks, and `rest` is in the buffer. -/
structure Represents (h : Hasher sha) (full rest : Bytes) : Prop where
  aligned : sha.blockSize ∣ full.length
  short : rest.length < sha.blockSize
  bytes : h.bytes = full.length + rest.length
  state : h.s = (blocks sha.blockSize full).foldl sha.transform sha.initial
  held : h.buf.take rest.length = rest

theorem represents_new (buf : Bytes) (size : buf.length = sha.blockSize) :
    (new buf size).Represents [] [] where
  aligned := Nat.dvd_zero _
  short := sha.blockSize_pos
  bytes := rfl
  state := by
    rw [blocks_of_lt sha.blockSize_pos]
    rfl
  held := rfl

theorem chunks_of_le (h : Hasher sha) (hle : sha.blockSize ≤ data.length) :
    h.chunks data = ((h.process (data.take sha.blockSize)).advance sha.blockSize).chunks
      (data.drop sha.blockSize) := by
  rw [chunks, if_pos hle]

theorem chunks_of_lt (h : Hasher sha) (hlt : ¬sha.blockSize ≤ data.length) :
    h.chunks data = (h, data) := by
  rw [chunks, if_neg hlt]

namespace Represents

theorem bufsize_eq (hr : h.Represents full rest) : h.bytes % sha.blockSize = rest.length := by
  obtain ⟨q, hq⟩ := hr.aligned
  rw [hr.bytes, hq, Nat.mul_add_mod, Nat.mod_eq_of_lt hr.short]

/-- A block that was processed. -/
theorem process (hr : h.Represents full []) {chunk : Bytes} (hchunk : chunk.length = sha.blockSize)
    (hlen : full.length + chunk.length < 2 ^ 64) :
    ((h.process chunk).advance sha.blockSize).Represents (full ++ chunk) [] where
  aligned := by
    rw [List.length_append, hchunk]
    exact Nat.dvd_add hr.aligned (Nat.dvd_refl _)
  short := sha.blockSize_pos
  bytes := by
    have hbytes := hr.bytes
    show (h.bytes + sha.blockSize) % 2 ^ 64 = _
    rw [hbytes, List.length_nil, Nat.add_zero, ← hchunk, Nat.mod_eq_of_lt hlen, List.length_append]
    rfl
  state := by
    show sha.transform h.s chunk = _
    rw [blocks_append sha.blockSize_pos hr.aligned, blocks_single sha.blockSize_pos hchunk,
      List.foldl_append, ← hr.state]
    rfl
  held := rfl

/-- The loop over the full chunks. -/
theorem chunks (hr : h.Represents full []) (data : Bytes)
    (hlen : full.length + data.length < 2 ^ 64) :
    ∃ full', (h.chunks data).1.Represents (full ++ full') [] ∧ data = full' ++ (h.chunks data).2 ∧
      (h.chunks data).2.length < sha.blockSize := by
  induction hn : data.length using Nat.strong_induction_on generalizing h full data with
  | _ n ih =>
    by_cases hle : sha.blockSize ≤ data.length
    · rw [chunks_of_le h hle]
      have hB := sha.blockSize_pos
      have htake : (data.take sha.blockSize).length = sha.blockSize := by
        rw [List.length_take]
        omega
      have hdrop : (data.drop sha.blockSize).length = data.length - sha.blockSize := List.length_drop
      have hstep := hr.process htake (by omega)
      have hlen' : (full ++ data.take sha.blockSize).length + (data.drop sha.blockSize).length < 2 ^ 64 := by
        rw [List.length_append]
        omega
      obtain ⟨full', hrep, hdata, hlt⟩ := ih _ (by omega) hstep _ hlen' hdrop
      refine ⟨data.take sha.blockSize ++ full', by rwa [← List.append_assoc], ?_, hlt⟩
      rw [List.append_assoc, ← hdata, List.take_append_drop]
    · rw [chunks_of_lt h hle]
      exact ⟨[], by rwa [List.append_nil], rfl, Nat.not_le.mp hle⟩

/-- What fits behind the rest is copied there. -/
theorem copy (hr : h.Represents full rest) (hlt : rest.length + data.length < sha.blockSize)
    (hlen : full.length + rest.length + data.length < 2 ^ 64) :
    ∃ h', h.copy rest.length data = some h' ∧ (h'.advance data.length).Represents full (rest ++ data) := by
  have hle : rest.length + data.length ≤ h.buf.length := h.size ▸ Nat.le_of_lt hlt
  refine ⟨_, dif_pos hle, hr.aligned, by rwa [List.length_append], ?_, hr.state, ?_⟩
  · show (h.bytes + data.length) % 2 ^ 64 = _
    rw [hr.bytes, Nat.mod_eq_of_lt hlen, List.length_append, Nat.add_assoc]
  · show (overwrite h.buf rest.length data).take _ = _
    rw [List.length_append, take_overwrite hle, hr.held]

/-- The buffer is filled and processed, or there is too little data, or nothing in the buffer. -/
theorem fill (hr : h.Represents full rest) (hlen : full.length + rest.length + data.length < 2 ^ 64) :
    ∃ h' data' full' rest', h.fill data = some (h', data', rest'.length) ∧ h'.Represents full' rest' ∧
      full' ++ rest' ++ data' = full ++ rest ++ data ∧
      (rest' = [] ∨ rest'.length + data'.length < sha.blockSize) := by
  have hshort := hr.short
  simp only [Hasher.fill, hr.bufsize_eq]
  split_ifs with hfill
  · have hchunk : (data.take (sha.blockSize - rest.length)).length = sha.blockSize - rest.length := by
      rw [List.length_take]
      omega
    have hle : rest.length + (data.take (sha.blockSize - rest.length)).length ≤ h.buf.length := by
      rw [hchunk, h.size]
      omega
    -- the buffer has the rest and the beginning of the data
    have hbuf : overwrite h.buf rest.length (data.take (sha.blockSize - rest.length)) =
        rest ++ data.take (sha.blockSize - rest.length) := by
      have htake := take_overwrite hle
      rw [hr.held] at htake
      refine (List.take_of_length_le ?_).symm.trans htake
      rw [Framework.length_overwrite hle, h.size, hchunk]
      omega
    have hblock : (rest ++ data.take (sha.blockSize - rest.length)).length = sha.blockSize := by
      rw [List.length_append, hchunk]
      omega
    refine ⟨_, data.drop (sha.blockSize - rest.length),
      full ++ (rest ++ data.take (sha.blockSize - rest.length)), [],
      by simp only [Hasher.copy, dif_pos hle, Option.bind_eq_bind, Option.bind_some]; rfl, ?_, ?_, .inl rfl⟩
    · refine
        { aligned := ?_
          short := sha.blockSize_pos
          bytes := ?_
          state := ?_
          held := rfl }
      · rw [List.length_append, hblock]
        exact Nat.dvd_add hr.aligned (Nat.dvd_refl _)
      · show (h.bytes + (sha.blockSize - rest.length)) % 2 ^ 64 = _
        rw [hr.bytes, List.length_append, hblock, List.length_nil, Nat.mod_eq_of_lt (by omega)]
        omega
      · show sha.transform h.s (overwrite h.buf rest.length _) = _
        rw [hbuf, blocks_append sha.blockSize_pos hr.aligned, blocks_single sha.blockSize_pos hblock,
          List.foldl_append, ← hr.state]
        rfl
    · simp only [List.append_nil, List.append_assoc, List.take_append_drop]
  · refine ⟨h, data, full, rest, rfl, hr, rfl, ?_⟩
    rw [not_and_or, not_not, not_le] at hfill
    exact hfill.imp_left List.eq_nil_of_length_eq_zero

/-- The copy at the end of `Write`. -/
theorem tail (hr : h.Represents full rest) (data : Bytes)
    (hlt : rest.length + data.length < sha.blockSize)
    (hlen : full.length + rest.length + data.length < 2 ^ 64) :
    ∃ h', (if data ≠ [] then (h.copy rest.length data).map (·.advance data.length) else some h) = some h' ∧
      h'.Represents full (rest ++ data) := by
  by_cases hdata : data = []
  · refine ⟨h, if_neg (not_not.mpr hdata), ?_⟩
    rwa [hdata, List.append_nil]
  · obtain ⟨h', hcopy, hrep⟩ := hr.copy hlt hlen
    exact ⟨_, by rw [if_pos hdata, hcopy]; rfl, hrep⟩

/-- `Write` adds to what is represented. -/
theorem write (hr : h.Represents full rest) (data : Bytes)
    (hlen : full.length + rest.length + data.length < 2 ^ 64) :
    ∃ h' full' rest', h.write data = some h' ∧ h'.Represents full' rest' ∧
      full' ++ rest' = full ++ rest ++ data := by
  obtain ⟨h₁, data₁, full₁, rest₁, hfill, hr₁, heq, hcase⟩ := hr.fill hlen
  have hlength := congrArg List.length heq
  simp only [List.length_append] at hlength
  have hwrite : h.write data = (if (h₁.chunks data₁).2 ≠ [] then
      ((h₁.chunks data₁).1.copy rest₁.length (h₁.chunks data₁).2).map
        (·.advance (h₁.chunks data₁).2.length) else some (h₁.chunks data₁).1) := by
    simp only [Hasher.write, hfill, Option.bind_eq_bind, Option.bind_some]
    split_ifs
    · rw [Option.map_eq_bind]
      rfl
    · rfl
  rw [hwrite]
  rcases hcase with rfl | hlt
  · -- nothing in the buffer: the full chunks are processed
    obtain ⟨full₂, hr₂, hdata, hlt⟩ := hr₁.chunks data₁ (by rw [List.length_nil] at hlength; omega)
    have hlength₂ := congrArg List.length hdata
    rw [List.length_append] at hlength₂
    rw [List.length_nil] at hlength
    obtain ⟨h', hh', hr'⟩ := hr₂.tail (h₁.chunks data₁).2 (by rw [List.length_nil]; omega)
      (by rw [List.length_append, List.length_nil]; omega)
    refine ⟨h', _, _, hh', hr', ?_⟩
    rw [← heq, List.nil_append, List.append_nil, List.append_assoc, ← hdata]
  · -- the data fits into the buffer
    rw [chunks_of_lt h₁ (by omega)]
    obtain ⟨h', hh', hr'⟩ := hr₁.tail data₁ hlt (by omega)
    exact ⟨h', _, _, hh', hr', by rw [← heq, List.append_assoc]⟩

/-- Several calls of `Write` add what they have together. -/
theorem writes (hr : h.Represents full rest) (datas : List Bytes)
    (hlen : full.length + rest.length + datas.flatten.length < 2 ^ 64) :
    ∃ h' full' rest', h.writes datas = some h' ∧ h'.Represents full' rest' ∧
      full' ++ rest' = full ++ rest ++ datas.flatten := by
  induction datas generalizing h full rest with
  | nil => exact ⟨h, full, rest, rfl, hr, by simp⟩
  | cons data datas ih =>
    rw [List.flatten_cons, List.length_append] at hlen
    obtain ⟨h₁, full₁, rest₁, hwrite, hr₁, heq₁⟩ := hr.write data (by omega)
    have hlength := congrArg List.length heq₁
    simp only [List.length_append] at hlength
    obtain ⟨h', full', rest', hwrites, hr', heq⟩ := ih hr₁ (by omega)
    refine ⟨h', full', rest', by rw [Hasher.writes, hwrite]; exact hwrites, hr', ?_⟩
    rw [heq, heq₁, List.flatten_cons, List.append_assoc _ data]

/-- `Finalize` gives the digest of what was written. -/
theorem finalize (hr : h.Represents full rest)
    (hlen : full.length + rest.length + 2 * sha.blockSize < 2 ^ 64) :
    ∃ h', h.finalize = some (digest sha (full ++ rest), h') := by
  have hB := sha.blockSize_pos
  obtain ⟨hsize8, hsizeB⟩ := sha.sizeLen_le
  have hzeros : zeros sha (full ++ rest).length < sha.blockSize := Nat.mod_lt _ hB
  -- the part of `pad` that is written
  have hpadLen : h.padLen = 1 + zeros sha (full ++ rest).length := by
    rw [padLen, zeros, hr.bufsize_eq, Nat.sub_sub, Nat.sub_sub, mod_sub (by have := hr.short; omega)]
    have hmod : (sha.sizeLen + (1 + rest.length)) % sha.blockSize =
        ((full ++ rest).length + 1 + sha.sizeLen) % sha.blockSize := by
      obtain ⟨q, hq⟩ := hr.aligned
      rw [List.length_append, hq, show sha.blockSize * q + rest.length + 1 + sha.sizeLen =
        sha.blockSize * q + (sha.sizeLen + (1 + rest.length)) by omega, Nat.mul_add_mod]
    rw [hmod]
  have hpad : (pad sha).take h.padLen =
      0x80 :: List.replicate (zeros sha (full ++ rest).length) 0 := by
    rw [hpadLen, Nat.add_comm, pad, List.take_succ_cons, List.take_replicate, Nat.min_eq_left (by omega)]
  have hsizedesc : h.sizedesc = List.replicate (sha.sizeLen - 8) (0 : UInt8) ++
      beBytes 8 (8 * (full ++ rest).length % 2 ^ 64) := by
    rw [sizedesc, hr.bytes, Nat.shiftLeft_eq, ← List.length_append, Nat.mul_comm]
  have hsizeLen : h.sizedesc.length = sha.sizeLen := by
    rw [hsizedesc, List.length_append, List.length_replicate, length_beBytes]
    omega
  have hpadLength : ((pad sha).take h.padLen).length = 1 + zeros sha (full ++ rest).length := by
    rw [hpad, List.length_cons, List.length_replicate, Nat.add_comm]
  obtain ⟨h₁, full₁, rest₁, hwrite₁, hr₁, heq₁⟩ :=
    hr.write ((pad sha).take h.padLen) (by rw [hpadLength]; omega)
  have hlength₁ := congrArg List.length heq₁
  simp only [List.length_append] at hlength₁
  obtain ⟨h₂, full₂, rest₂, hwrite₂, hr₂, heq₂⟩ :=
    hr₁.write h.sizedesc (by rw [hsizeLen, hlength₁, hpadLength]; omega)
  have hmessage : full₂ ++ rest₂ = full ++ rest ++ padding sha (full ++ rest).length := by
    rw [heq₂, heq₁, hpad, hsizedesc, padding, List.append_assoc (full ++ rest)]
  -- nothing is left in the buffer
  have hnil : rest₂ = [] := by
    have hdvd := dvd_zeros sha (full ++ rest).length
    have hlength := congrArg List.length hmessage
    rw [List.length_append] at hlength
    rw [show (full ++ rest ++ padding sha (full ++ rest).length).length = _ from List.length_append,
      length_padding] at hlength
    have hdvd' : sha.blockSize ∣ rest₂.length := by
      refine (Nat.dvd_add_right hr₂.aligned).mp ?_
      rw [hlength]
      convert hdvd using 1
      omega
    exact List.eq_nil_of_length_eq_zero (Nat.eq_zero_of_dvd_of_lt hdvd' hr₂.short)
  subst hnil
  rw [List.append_nil] at hmessage
  refine ⟨h₂, ?_⟩
  simp only [Hasher.finalize, hwrite₁, hwrite₂, Option.bind_eq_bind, Option.bind_some]
  rw [digest, ← hmessage, ← hr₂.state]

end Represents

/-- Every way of writing a message gives its digest. -/
theorem finalize_writes (buf : Bytes) (size : buf.length = sha.blockSize) {datas : List Bytes}
    (hlen : datas.flatten.length + 2 * sha.blockSize < 2 ^ 64) :
    ∃ h', ((new buf size).writes datas).bind finalize = some (digest sha datas.flatten, h') := by
  obtain ⟨h, full, rest, hwrites, hr, heq⟩ :=
    (represents_new buf size).writes datas (by rw [List.length_nil]; omega)
  have hmessage : full ++ rest = datas.flatten := heq
  have hlength := congrArg List.length hmessage
  rw [List.length_append] at hlength
  obtain ⟨h', hfinalize⟩ := hr.finalize (by omega)
  exact ⟨h', by rw [hwrites, Option.bind_some, hfinalize, hmessage]⟩

/-! ## The buffer of a new object -/

/-- Two objects that differ only in what is behind the used part of the buffer. -/
structure Sim (h h' : Hasher sha) : Prop where
  state : h.s = h'.s
  bytes : h.bytes = h'.bytes
  held : h.buf.take (h.bytes % sha.blockSize) = h'.buf.take (h.bytes % sha.blockSize)

theorem Sim.refl (h : Hasher sha) : Sim h h := ⟨rfl, rfl, rfl⟩

theorem sim_new (buf buf' : Bytes) (size : buf.length = sha.blockSize)
    (size' : buf'.length = sha.blockSize) : Sim (new buf size) (new buf' size') where
  state := rfl
  bytes := rfl
  held := by
    show buf.take (0 % sha.blockSize) = buf'.take (0 % sha.blockSize)
    rw [Nat.zero_mod, List.take_zero, List.take_zero]

/-- Both are undefined, or both have results that are related. -/
def Both {α : Type} (R : α → α → Prop) (x y : Option α) : Prop :=
  (x = none ∧ y = none) ∨ ∃ a b, x = some a ∧ y = some b ∧ R a b

namespace Sim

variable {h' : Hasher sha}

/-- The copy at the end of `Write`. -/
theorem tail (hB : sha.blockSize ∣ 2 ^ 64) (hs : Sim h h')
    (hlt : h.bytes % sha.blockSize + data.length < sha.blockSize) :
    ∃ g g', (h.copy (h.bytes % sha.blockSize) data) = some g ∧
      h'.copy (h.bytes % sha.blockSize) data = some g' ∧
      Sim (g.advance data.length) (g'.advance data.length) := by
  have hle : h.bytes % sha.blockSize + data.length ≤ h.buf.length := by
    rw [h.size]
    exact Nat.le_of_lt hlt
  have hle' : h.bytes % sha.blockSize + data.length ≤ h'.buf.length := by
    rw [h'.size]
    exact Nat.le_of_lt hlt
  refine ⟨_, _, dif_pos hle, dif_pos hle', hs.state, ?_, ?_⟩
  · show (h.bytes + data.length) % 2 ^ 64 = (h'.bytes + data.length) % 2 ^ 64
    rw [hs.bytes]
  · have hplace : (h.bytes + data.length) % 2 ^ 64 % sha.blockSize =
        h.bytes % sha.blockSize + data.length := by
      rw [Nat.mod_mod_of_dvd _ hB, ← Nat.mod_add_mod, Nat.mod_eq_of_lt hlt]
    show (overwrite h.buf _ data).take ((h.bytes + data.length) % 2 ^ 64 % sha.blockSize) =
      (overwrite h'.buf _ data).take ((h.bytes + data.length) % 2 ^ 64 % sha.blockSize)
    rw [hplace, take_overwrite hle, take_overwrite hle', hs.held]

/-- The loop over the full chunks, with nothing in the buffers. -/
theorem chunks (hB : sha.blockSize ∣ 2 ^ 64) (hs : Sim h h') (data : Bytes)
    (hempty : h.bytes % sha.blockSize = 0) :
    Sim (h.chunks data).1 (h'.chunks data).1 ∧ (h.chunks data).2 = (h'.chunks data).2 ∧
      (h.chunks data).1.bytes % sha.blockSize = 0 ∧ (h.chunks data).2.length < sha.blockSize := by
  induction hn : data.length using Nat.strong_induction_on generalizing h h' data with
  | _ n ih =>
    by_cases hle : sha.blockSize ≤ data.length
    · rw [chunks_of_le h hle, chunks_of_le h' hle]
      have hpos := sha.blockSize_pos
      have hdrop : (data.drop sha.blockSize).length < n := by
        rw [List.length_drop]
        omega
      have hplace : (h.bytes + sha.blockSize) % 2 ^ 64 % sha.blockSize = 0 := by
        rw [Nat.mod_mod_of_dvd _ hB, Nat.add_mod_right, hempty]
      refine ih _ hdrop ⟨?_, ?_, ?_⟩ _ hplace rfl
      · show sha.transform h.s _ = sha.transform h'.s _
        rw [hs.state]
      · show (h.bytes + sha.blockSize) % 2 ^ 64 = (h'.bytes + sha.blockSize) % 2 ^ 64
        rw [hs.bytes]
      · show h.buf.take ((h.bytes + sha.blockSize) % 2 ^ 64 % sha.blockSize) =
          h'.buf.take ((h.bytes + sha.blockSize) % 2 ^ 64 % sha.blockSize)
        rw [hplace, List.take_zero, List.take_zero]
    · rw [chunks_of_lt h hle, chunks_of_lt h' hle]
      exact ⟨hs, rfl, hempty, Nat.not_le.mp hle⟩

/-- A buffer that is filled is the same for both. -/
theorem fill (hs : Sim h h') (data : Bytes) :
    (∃ r, h.fill data = some r ∧ h'.fill data = some r) ∨
      (h.fill data = some (h, data, h.bytes % sha.blockSize) ∧
        h'.fill data = some (h', data, h.bytes % sha.blockSize) ∧
        (h.bytes % sha.blockSize = 0 ∨ h.bytes % sha.blockSize + data.length < sha.blockSize)) := by
  have hshort := Nat.mod_lt h.bytes sha.blockSize_pos
  simp only [Hasher.fill, ← hs.bytes]
  generalize hr : h.bytes % sha.blockSize = r at hshort
  by_cases hfill : r ≠ 0 ∧ sha.blockSize ≤ r + data.length
  · left
    have hchunk : (data.take (sha.blockSize - r)).length = sha.blockSize - r := by
      rw [List.length_take]
      omega
    have hle : r + (data.take (sha.blockSize - r)).length ≤ h.buf.length := by
      rw [hchunk, h.size]
      omega
    have hle' : r + (data.take (sha.blockSize - r)).length ≤ h'.buf.length := by
      rw [hchunk, h'.size]
      omega
    have hbuf : overwrite h.buf r (data.take (sha.blockSize - r)) =
        overwrite h'.buf r (data.take (sha.blockSize - r)) := by
      have hheld := hs.held
      rw [hr] at hheld
      rw [overwrite, overwrite, hheld, List.drop_eq_nil_of_le (by rw [hchunk, h.size]; omega),
        List.drop_eq_nil_of_le (by rw [hchunk, h'.size]; omega)]
    have hcopy : h.copy r (data.take (sha.blockSize - r)) = h'.copy r (data.take (sha.blockSize - r)) := by
      simp only [Hasher.copy, dif_pos hle, dif_pos hle', hbuf, hs.state, hs.bytes]
    obtain ⟨g, hg⟩ : ∃ g, h.copy r (data.take (sha.blockSize - r)) = some g := ⟨_, dif_pos hle⟩
    rw [if_pos hfill, if_pos hfill, ← hcopy, hg]
    exact ⟨_, rfl, rfl⟩
  · right
    rw [not_and_or, not_not, not_le] at hfill
    have hneg : ¬(r ≠ 0 ∧ sha.blockSize ≤ r + data.length) := by omega
    exact ⟨if_neg hneg, if_neg hneg, hfill⟩

theorem write (hB : sha.blockSize ∣ 2 ^ 64) (hs : Sim h h') (data : Bytes) :
    Both Sim (h.write data) (h'.write data) := by
  rcases hs.fill data with ⟨r, hfill, hfill'⟩ | ⟨hfill, hfill', hcase⟩
  · have heq : h.write data = h'.write data := by
      simp only [Hasher.write, hfill, hfill']
    rw [← heq]
    cases hw : h.write data with
    | none => exact .inl ⟨rfl, rfl⟩
    | some g => exact .inr ⟨g, g, rfl, rfl, .refl g⟩
  · -- what is left of the data after the loop
    obtain ⟨hs₁, hdata, hlt⟩ : Sim (h.chunks data).1 (h'.chunks data).1 ∧
        (h.chunks data).2 = (h'.chunks data).2 ∧
        (h.chunks data).1.bytes % sha.blockSize = h.bytes % sha.blockSize ∧
        h.bytes % sha.blockSize + (h.chunks data).2.length < sha.blockSize := by
      rcases hcase with hempty | hlt
      · obtain ⟨hs₁, hdata, hplace, hlt⟩ := hs.chunks hB data hempty
        exact ⟨hs₁, hdata, by rw [hplace, hempty], by omega⟩
      · have hnone : ¬sha.blockSize ≤ data.length := by omega
        rw [chunks_of_lt h hnone, chunks_of_lt h' hnone]
        exact ⟨hs, rfl, rfl, hlt⟩
    obtain ⟨hplace, hlt⟩ := hlt
    simp only [Hasher.write, hfill, hfill', Option.bind_eq_bind, Option.bind_some, ← hdata]
    rw [← hplace] at hlt ⊢
    by_cases hnil : (h.chunks data).2 = []
    · rw [if_neg (not_not.mpr hnil), if_neg (not_not.mpr hnil)]
      exact .inr ⟨_, _, rfl, rfl, hs₁⟩
    · rw [if_pos hnil, if_pos hnil]
      obtain ⟨g, g', hg, hg', hsim⟩ := hs₁.tail hB hlt
      rw [hg, hg']
      exact .inr ⟨_, _, rfl, rfl, hsim⟩

theorem finalize (hB : sha.blockSize ∣ 2 ^ 64) (hs : Sim h h') :
    Both (fun r r' => r.1 = r'.1 ∧ Sim r.2 r'.2) h.finalize h'.finalize := by
  have hpadLen : h'.padLen = h.padLen := by rw [padLen, padLen, hs.bytes]
  have hsizedesc : h'.sizedesc = h.sizedesc := by rw [sizedesc, sizedesc, hs.bytes]
  simp only [Hasher.finalize, hpadLen, hsizedesc]
  rcases hs.write hB ((pad sha).take h.padLen) with ⟨h₁, h₁'⟩ | ⟨g, g', h₁, h₁', hs₁⟩
  · rw [h₁, h₁']
    exact .inl ⟨rfl, rfl⟩
  rw [h₁, h₁', Option.bind_eq_bind, Option.bind_some, Option.bind_some]
  rcases hs₁.write hB h.sizedesc with ⟨h₂, h₂'⟩ | ⟨k, k', h₂, h₂', hs₂⟩
  · rw [h₂, h₂']
    exact .inl ⟨rfl, rfl⟩
  · rw [h₂, h₂']
    exact .inr ⟨_, _, rfl, rfl, congrArg sha.output hs₂.state, hs₂⟩

/-- The same calls return the same digests. -/
theorem digests (hB : sha.blockSize ∣ 2 ^ 64) (hs : Sim h h') (calls : List Call) :
    h.digests calls = h'.digests calls := by
  induction calls generalizing h h' with
  | nil => rfl
  | cons call calls ih =>
    cases call with
    | write data =>
      rw [Hasher.digests, Hasher.digests]
      rcases hs.write hB data with ⟨h₁, h₁'⟩ | ⟨g, g', h₁, h₁', hs₁⟩
      · rw [h₁, h₁']
      · rw [h₁, h₁', Option.bind_some, Option.bind_some, ih hs₁]
    | finalize =>
      rw [Hasher.digests, Hasher.digests]
      rcases hs.finalize hB with ⟨h₁, h₁'⟩ | ⟨⟨digest, g⟩, ⟨_, g'⟩, h₁, h₁', rfl, hs₁⟩
      · rw [h₁, h₁']
      · have heq : g.digests calls = g'.digests calls := ih hs₁
        simp only [h₁, h₁', Option.bind_some, heq]
    | reset =>
      rw [Hasher.digests, Hasher.digests]
      exact ih (sim_new h.buf h'.buf h.size h'.size)

end Sim

end Hasher

/-! ## HMAC-SHA-512 -/

theorem length_digest512 (m : Bytes) : (digest sha512 m).length = 64 := by
  show (List.flatMap _ _).length = 64
  simp [length_beBytes]

/-- The key in a whole block. -/
def hmacKey (key : Bytes) : Bytes :=
  if key.length ≤ 128 then key ++ List.replicate (128 - key.length) 0
  else digest sha512 key ++ List.replicate 64 0

/-- The code of a message under a key. -/
def hmac (key m : Bytes) : Bytes :=
  digest sha512 ((hmacKey key).map (· ^^^ 0x5c) ++
    digest sha512 ((hmacKey key).map (· ^^^ 0x36) ++ m))

theorem length_hmacKey (key : Bytes) : (hmacKey key).length = 128 := by
  unfold hmacKey
  split_ifs with hle
  · rw [List.length_append, List.length_replicate]
    omega
  · rw [List.length_append, List.length_replicate, length_digest512]

namespace CHMAC_SHA512

open Hasher

/-- One call of `Write` on a new object. -/
theorem exists_write (buf : HashBuffer) (m : Bytes) (hlen : m.length < 2 ^ 64) :
    ∃ h full rest, (Hasher.new buf.val buf.property : CSHA512).write m = some h ∧
      h.Represents full rest ∧ full ++ rest = m := by
  obtain ⟨h, full, rest, hwrite, hr, heq⟩ :=
    (represents_new buf.val buf.property).write m (by simpa using hlen)
  exact ⟨h, full, rest, hwrite, hr, heq⟩

theorem rkey_eq (buf : HashBuffer) {key : Bytes} (hkey : key.length < 2 ^ 61) :
    rkey buf key = some (hmacKey key) := by
  unfold rkey hmacKey
  split_ifs
  · rfl
  · obtain ⟨h, full, rest, hwrite, hr, heq⟩ := exists_write buf key (by omega)
    have hlength := congrArg List.length heq
    rw [List.length_append] at hlength
    obtain ⟨h', hfinalize⟩ := hr.finalize (by
      show _ + 2 * 128 < 2 ^ 64
      omega)
    simp only [hwrite, hfinalize, heq, Option.bind_eq_bind, Option.bind_some]

/-- Every way of writing a message gives its code. -/
theorem finalize_writes (buf : HmacBuffers) {key : Bytes} (hkey : key.length < 2 ^ 61) {datas : List Bytes}
    (hlen : datas.flatten.length < 2 ^ 61) :
    ∃ h', ((new buf key).bind fun h => h.writes datas).bind finalize =
      some (hmac key datas.flatten, h') := by
  have hxor : ((hmacKey key).map (· ^^^ 0x5c)).map (· ^^^ (0x5c ^^^ 0x36)) =
      (hmacKey key).map (· ^^^ 0x36) := by
    rw [List.map_map]
    refine List.map_congr_left fun x _ => ?_
    rw [Function.comp_apply, ← UInt8.xor_assoc, UInt8.xor_assoc x, UInt8.xor_self, UInt8.xor_zero]
  have hpads : ∀ f : UInt8 → UInt8, ((hmacKey key).map f).length < 2 ^ 64 := fun f => by
    rw [List.length_map, length_hmacKey]
    decide
  obtain ⟨outer, fullO, restO, hwriteO, hrO, heqO⟩ :=
    exists_write buf.outer _ (hpads (· ^^^ 0x5c))
  obtain ⟨inner, fullI, restI, hwriteI, hrI, heqI⟩ :=
    exists_write buf.inner _ (hpads (· ^^^ 0x36))
  have hlengthO := congrArg List.length heqO
  have hlengthI := congrArg List.length heqI
  rw [List.length_append, List.length_map, length_hmacKey] at hlengthO hlengthI
  have hnew : new buf key = some ⟨outer, inner⟩ := by
    simp only [new, rkey_eq buf.key hkey, Option.bind_eq_bind, Option.bind_some, hwriteO, hxor, hwriteI]
  -- the message goes to the inner object
  have hwrites : ∀ (ds : List Bytes) (i : CSHA512),
      (⟨outer, i⟩ : CHMAC_SHA512).writes ds = (i.writes ds).map fun i => ⟨outer, i⟩ := by
    intro ds
    induction ds with
    | nil => exact fun i => rfl
    | cons data ds ih =>
      intro i
      rw [writes, write, Hasher.writes]
      cases hw : i.write data with
      | none => rfl
      | some i' => exact ih i'
  obtain ⟨inner', fullI', restI', hwI, hrI', heqI'⟩ := hrI.writes datas (by omega)
  have hlengthI' := congrArg List.length heqI'
  simp only [List.length_append] at hlengthI'
  obtain ⟨inner'', hfinalI⟩ := hrI'.finalize (by
    show _ + 2 * 128 < 2 ^ 64
    omega)
  -- and its digest to the outer one
  obtain ⟨outer', fullO', restO', hwO, hrO', heqO'⟩ :=
    hrO.write (digest sha512 (fullI' ++ restI')) (by rw [length_digest512]; omega)
  have hlengthO' := congrArg List.length heqO'
  simp only [List.length_append, length_digest512] at hlengthO'
  obtain ⟨outer'', hfinalO⟩ := hrO'.finalize (by
    show _ + 2 * 128 < 2 ^ 64
    omega)
  refine ⟨⟨outer'', inner''⟩, ?_⟩
  rw [hnew, Option.bind_some, hwrites, hwI, Option.map_some, Option.bind_some]
  simp only [finalize, hfinalI, hwO, hfinalO, Option.bind_eq_bind, Option.bind_some]
  rw [heqO', heqI', heqO, heqI, hmac]

end CHMAC_SHA512

/-! ## The three hash functions -/

/-- What an object does: a message shorter than `2 ^ 61` bytes, written in any parts, gives its digest;
and after `Reset` any calls return what they return on a new object. -/
structure Streams (sha : Sha) : Prop where
  digest_eq : ∀ (buf : Bytes) (size : buf.length = sha.blockSize) (datas : List Bytes),
    datas.flatten.length < 2 ^ 61 →
      ∃ h', ((Hasher.new buf size).writes datas).bind Hasher.finalize =
        some (digest sha datas.flatten, h')
  reset_eq : ∀ (h : Hasher sha) (buf : Bytes) (size : buf.length = sha.blockSize)
    (calls : List Hasher.Call), h.reset.digests calls = (Hasher.new buf size).digests calls

theorem streams (hB : sha.blockSize ∣ 2 ^ 64) (hle : sha.blockSize ≤ 128) : Streams sha where
  digest_eq buf size _ hlen := Hasher.finalize_writes buf size (by omega)
  reset_eq h buf size := (Hasher.sim_new h.buf buf h.size size).digests hB

/-- The three hash functions give the digest of what was written, whichever way it was written. -/
theorem sha2_streaming :
    Streams sha256 ∧ Streams sha512 ∧
      ∀ (buf : HmacBuffers) (key : Bytes) (datas : List Bytes),
        key.length < 2 ^ 61 → datas.flatten.length < 2 ^ 61 →
          ∃ h', ((CHMAC_SHA512.new buf key).bind fun h => h.writes datas).bind
            CHMAC_SHA512.finalize = some (hmac key datas.flatten, h') :=
  ⟨streams (by decide) (by decide), streams (by decide) (by decide),
    fun buf _ _ hkey hlen => CHMAC_SHA512.finalize_writes buf hkey hlen⟩

end GC
