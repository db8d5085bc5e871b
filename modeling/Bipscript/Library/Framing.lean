import Mathlib.Data.List.Basic
import Mathlib.Tactic.Linarith

/-! Length-prefixed frames in a bounded queue of bytes. -/
namespace Framing

/-- A write stores the bytes that fit. -/
def write (capacity : ℕ) (queue data : List UInt8) : List UInt8 :=
  queue ++ data.take (capacity - queue.length)

theorem write_of_le {capacity : ℕ} {queue data : List UInt8}
    (h : queue.length + data.length ≤ capacity) : write capacity queue data = queue ++ data := by
  unfold write
  rw [List.take_of_length_le (by omega)]

/-- The four bytes of a number, the lowest first. -/
def bytes32 (n : ℕ) : List UInt8 :=
  [UInt8.ofNat n, UInt8.ofNat (n / 2 ^ 8), UInt8.ofNat (n / 2 ^ 16), UInt8.ofNat (n / 2 ^ 24)]

/-- The number whose lowest bytes are given, and whose other bytes are zero. -/
def number (bytes : List UInt8) : ℕ := bytes.foldr (fun b n => b.toNat + 2 ^ 8 * n) 0

@[simp] theorem length_bytes32 (n : ℕ) : (bytes32 n).length = 4 := rfl

theorem number_bytes32 {n : ℕ} (h : n < 2 ^ 32) : number (bytes32 n) = n := by
  have hbyte : ∀ m : ℕ, (UInt8.ofNat m).toNat = m % 2 ^ 8 := fun m => UInt8.toNat_ofNat
  unfold number bytes32
  simp only [List.foldr_cons, List.foldr_nil, hbyte]
  omega

/-- A frame: the length, then the bytes. -/
def frame (data : List UInt8) : List UInt8 := bytes32 data.length ++ data

def frames (ds : List (List UInt8)) : List UInt8 := ds.flatMap frame

theorem frames_cons (d : List UInt8) (ds : List (List UInt8)) :
    frames (d :: ds) = bytes32 d.length ++ (d ++ frames ds) := by
  unfold frames frame
  rw [List.flatMap_cons, List.append_assoc]

theorem frames_concat (ds : List (List UInt8)) (d : List UInt8) :
    frames (ds ++ [d]) = frames ds ++ frame d := by
  unfold frames
  rw [List.flatMap_append, List.flatMap_singleton]

/-- The first four bytes before a frame's data are its length. -/
theorem number_take {n : ℕ} (h : n < 2 ^ 32) (rest : List UInt8) :
    number ((bytes32 n ++ rest).take 4) = n := by
  rw [List.take_left' (length_bytes32 n), number_bytes32 h]

theorem drop_bytes32 (n : ℕ) (rest : List UInt8) : (bytes32 n ++ rest).drop 4 = rest :=
  List.drop_left' (length_bytes32 n)

/-- A queue read up to what is known to come first. -/
theorem split_of_append_eq {queue later first rest : List UInt8}
    (h : queue ++ later = first ++ rest) (hlength : first.length ≤ queue.length) :
    queue.take first.length = first ∧ queue.drop first.length ++ later = rest := by
  constructor
  · rw [← @List.take_append_of_le_length _ _ later _ hlength, h, List.take_left]
  · rw [← List.drop_append_of_le_length hlength, h, List.drop_left]

theorem length_write_le {capacity : ℕ} {queue data : List UInt8} (h : queue.length ≤ capacity) :
    (write capacity queue data).length ≤ capacity := by
  unfold write
  rw [List.length_append, List.length_take]
  omega

theorem length_frames_cons (d : List UInt8) (ds : List (List UInt8)) :
    (frames (d :: ds)).length = 4 + d.length + (frames ds).length := by
  rw [frames_cons, List.length_append, List.length_append, length_bytes32, Nat.add_assoc]

end Framing
