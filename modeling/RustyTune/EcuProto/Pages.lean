import RustyTune.EcuProto.Session
import RustyTune.Lib.Slice

/-!
# Page operations

A page is read in chunks of the blocking factor; offsets on the wire have 16 bits.

* `PageCommands`: sizes of the pages and the blocking factor. `wireOffset`: an offset cast to 16
  bits.
* `readPage`: the download of a page over any way `request` of asking for a chunk.
  **`readFrom_run`**: the loop rule of the download.
* **`readFrom_bytes`**: whatever fails on the way, a page that is returned is the page the chunks
  come from; **`readFrom_total`**: where no request fails, it is returned.
-/

namespace RustyTune.EcuProto

/-- The success code of a burn. -/
def RC_BURN_OK : UInt8 := 0x04

def ProtoError.display : ProtoError → String
  | .io text => s!"io: {text}"
  | .template text => s!"bad command template: {text}"
  | .crcMismatch => "response CRC mismatch"
  | .ecuError rc =>
    let digits := Nat.toDigits 16 rc.toNat
    let padded := String.ofList (List.replicate (2 - digits.length) '0' ++ digits)
    s!"ECU returned error code 0x{padded}"
  | .timeout => "no response from ECU"
  | .shortResponse expected got => s!"short response: expected {expected} bytes, got {got}"
  | .unsupported text => text

/-- The page command set: sizes of the pages, and the largest chunk the ECU can answer. -/
structure PageCommands where
  sizes : List ℕ
  blockingFactor : ℕ
  blockingFactor_pos : 0 < blockingFactor

namespace PageCommands

def pageCount (pages : PageCommands) : ℕ := pages.sizes.length

/-- A 16-bit offset reaches every byte of every page. -/
def Addressable (pages : PageCommands) : Prop := ∀ size ∈ pages.sizes, size ≤ 2 ^ 16

/-- The error for a page there is not. -/
def outOfRange (pages : PageCommands) (pageIdx : ℕ) : ProtoError :=
  .template s!"page index {pageIdx} out of range ({pages.pageCount} pages)"

end PageCommands

/-- `as u16` of an offset. -/
def wireOffset (offset : ℕ) : ℕ := offset % 2 ^ 16

/-! ## Reading a page -/

section ReadPage

variable {σ : Type} (request : σ → ℕ → ℕ → Except ProtoError (List UInt8) × σ)

/-- The loop of `readPage` from `offset` on, `out` read so far; `fuel` chunks at most. -/
def readFrom (size blockingFactor : ℕ) : ℕ → ℕ → List UInt8 → σ →
    Except ProtoError (List UInt8) × σ
  | 0, _, out, s => (.ok out, s)
  | fuel + 1, offset, out, s =>
    if offset < size then
      let count := min (size - offset) blockingFactor
      match request s (wireOffset offset) count with
      | (.error e, s) => (.error e, s)
      | (.ok data, s) =>
        if data.length ≠ count then
          (.error (.shortResponse count data.length), s)
        else
          readFrom size blockingFactor fuel (offset + count) (out ++ data) s
    else
      (.ok out, s)

/-- Download a whole page, chunked by the blocking factor. -/
def readPage (pages : PageCommands) (pageIdx : ℕ) (s : σ) : Except ProtoError (List UInt8) × σ :=
  match pages.sizes[pageIdx]? with
  | none => (.error (pages.outOfRange pageIdx), s)
  | some size => readFrom request size pages.blockingFactor size 0 [] s

/-- **The loop rule**: what every chunk carries on from its offset to the next holds at the end, and
the page is returned. -/
theorem readFrom_run (page : List UInt8) {bf : ℕ} (hbf : 0 < bf) (P : ℕ → σ → Prop)
    (hP : ∀ s offset, P offset s → offset < page.length →
      (request s (wireOffset offset) (min (page.length - offset) bf)).1 =
          .ok (slice page offset (min (page.length - offset) bf)) ∧
        P (offset + min (page.length - offset) bf)
          (request s (wireOffset offset) (min (page.length - offset) bf)).2) :
    ∀ (fuel offset : ℕ) (s : σ), P offset s → offset ≤ page.length → page.length ≤ offset + fuel →
      (readFrom request page.length bf fuel offset (page.take offset) s).1 = .ok page ∧
        P page.length (readFrom request page.length bf fuel offset (page.take offset) s).2 := by
  intro fuel
  induction fuel with
  | zero =>
    intro offset s hs hoff hfuel
    obtain rfl : offset = page.length := by omega
    rw [readFrom, List.take_length]
    exact ⟨rfl, hs⟩
  | succ fuel ih =>
    intro offset s hs hoff hfuel
    rw [readFrom]
    split_ifs with hlt
    · set count := min (page.length - offset) bf with hcount
      obtain ⟨hdata, hnext⟩ := hP s offset hs hlt
      rw [← hcount] at hdata hnext
      rcases hreq : request s (wireOffset offset) count with ⟨r, s'⟩
      rw [hreq] at hdata hnext
      obtain rfl : r = .ok (slice page offset count) := hdata
      have hlen : (slice page offset count).length = count := slice_length (by omega)
      have hout : page.take offset ++ slice page offset count = page.take (offset + count) := by
        rw [slice, List.take_add]
      simp only [hreq, hlen, ne_eq, not_true_eq_false, if_false, hout]
      exact ih (offset + count) s' hnext (by omega) (by omega)
    · obtain rfl : offset = page.length := by omega
      rw [List.take_length]
      exact ⟨rfl, hs⟩

variable {request} {P : σ → Prop} {page : List UInt8} {bf : ℕ}

/-- The chunk at `offset`, read from a page within reach, continues what is read. -/
theorem append_chunk {offset count : ℕ} (h16 : page.length ≤ 2 ^ 16)
    (hin : offset + count ≤ page.length) (hpos : 0 < count) :
    page.take offset ++ slice page (wireOffset offset) count = page.take (offset + count) := by
  rw [wireOffset, Nat.mod_eq_of_lt (by omega), slice, List.take_add]

theorem readFrom_preserves (size : ℕ) (hP : ∀ s off count, P s → P (request s off count).2) :
    ∀ (fuel offset : ℕ) (out : List UInt8) (s : σ), P s →
      P (readFrom request size bf fuel offset out s).2
  | 0, _, _, _, hs => hs
  | fuel + 1, offset, out, s, hs => by
    rw [readFrom]
    split_ifs with hlt
    · have hP' := hP s (wireOffset offset) (min (size - offset) bf) hs
      match hreq : request s (wireOffset offset) (min (size - offset) bf) with
      | (.error e, s') =>
        rw [hreq] at hP'
        simp only [hreq]
        exact hP'
      | (.ok data, s') =>
        rw [hreq] at hP'
        simp only [hreq]
        split_ifs
        · exact hP'
        · exact readFrom_preserves size hP fuel _ _ s' hP'
    · exact hs

/-- **A page that is returned is the page the chunks come from**, whatever fails on the way. -/
theorem readFrom_bytes (page : List UInt8) (h16 : page.length ≤ 2 ^ 16) (hbf : 0 < bf)
    (hP : ∀ s off count, P s → P (request s off count).2 ∧
      ∀ data, (request s off count).1 = .ok data → data = slice page off count) :
    ∀ (fuel offset : ℕ) (s : σ), P s → offset ≤ page.length → page.length ≤ offset + fuel →
      ∀ bytes, (readFrom request page.length bf fuel offset (page.take offset) s).1 = .ok bytes →
        bytes = page
  | 0, offset, s, _, hoff, hfuel => fun bytes hb => by
    rw [← Except.ok.inj hb, List.take_of_length_le (by omega)]
  | fuel + 1, offset, s, hs, hoff, hfuel => by
    rw [readFrom]
    split_ifs with hlt
    · set count := min (page.length - offset) bf with hcount
      obtain ⟨hP', hdata⟩ := hP s (wireOffset offset) count hs
      match hreq : request s (wireOffset offset) count with
      | (.error e, s') =>
        simp only [hreq]
        exact fun _ hb => nomatch hb
      | (.ok data, s') =>
        rw [hreq] at hP' hdata
        obtain rfl := hdata data rfl
        simp only [hreq]
        split_ifs with hshort
        · exact fun _ hb => nomatch hb
        · rw [append_chunk h16 (by omega) (by omega)]
          exact readFrom_bytes page h16 hbf hP fuel (offset + count) s' hP' (by omega) (by omega)
    · intro bytes hb
      rw [← Except.ok.inj hb, List.take_of_length_le (by omega)]

/-- **Where no request fails, the page is returned.** -/
theorem readFrom_total (page : List UInt8) (h16 : page.length ≤ 2 ^ 16) (hbf : 0 < bf)
    (hP : ∀ s off count, P s → P (request s off count).2 ∧
      (request s off count).1 = .ok (slice page off count)) :
    ∀ (fuel offset : ℕ) (s : σ), P s → offset ≤ page.length → page.length ≤ offset + fuel →
      (readFrom request page.length bf fuel offset (page.take offset) s).1 = .ok page := by
  intro fuel offset s hs hoff hfuel
  refine (readFrom_run request page hbf (fun _ => P) (fun s offset hs hlt => ?_)
    fuel offset s hs hoff hfuel).1
  obtain ⟨hnext, hdata⟩ := hP s (wireOffset offset) (min (page.length - offset) bf) hs
  have hwire : wireOffset offset = offset := Nat.mod_eq_of_lt (by omega)
  refine ⟨hdata.trans ?_, hnext⟩
  rw [hwire]

end ReadPage

end RustyTune.EcuProto
