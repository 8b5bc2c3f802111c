import IoUring.Holding
import IoUring.Lines
import Mathlib.Algebra.BigOperators.Group.List.Basic

/-! example/io_uring_write.c: the numbers are printed line by line into a buffer of 12 bytes
for each, which one request then writes. omp_io_uring_writer.c fills its buffer alike. -/

namespace IoUring

namespace TextFile

/-- `%d`. -/
def decimal (x : Int32) : List Char :=
  if x < 0 then '-' :: Nat.toDigits 10 x.toInt.natAbs else Nat.toDigits 10 x.toInt.natAbs

def text (xs : List Int32) : List Char := Lines.text '\n' decimal xs

@[simp] theorem text_nil : text [] = [] := rfl

theorem text_cons (x : Int32) (xs : List Int32) :
    text (x :: xs) = decimal x ++ ['\n'] ++ text xs := by
  simp [text, Lines.text]

/-- `ptr += sprintf(ptr, "%d\n", x)`, where `buffer` is what stands before `ptr`. `sprintf`
also stores a zero behind the line. -/
def sprintf (size : Nat) (buffer : List Char) (x : Int32) : Option (List Char) :=
  let line := decimal x ++ ['\n']
  if buffer.length + line.length + 1 ≤ size then some (buffer ++ line) else none

def fill (size : Nat) : List Char → List Int32 → Option (List Char)
  | buffer, [] => some buffer
  | buffer, x :: xs =>
    match sprintf size buffer x with
    | none => none
    | some buffer => fill size buffer xs

inductive Kind where
  | buffer | descriptor | ring
deriving DecidableEq

inductive Deallocator where
  | free | close | queueExit
deriving DecidableEq

def Kind.deallocator : Kind → Deallocator
  | .buffer => .free
  | .descriptor => .close
  | .ring => .queueExit

abbrev World := Holding.World Kind Deallocator

abbrev Prog := Holding.Prog Kind Deallocator

/-- The answers to the calls of the program; `res` is how much the kernel writes. -/
structure Outcomes where
  malloc : Bool
  openFile : Bool
  queueInit : Int32
  getSqe : Bool
  waitCqe : Int32
  res : Int32

/-- `main`, for the numbers that its loop prints: its status and the file that it leaves, of
which `old` was there before. -/
def main (numbers : List Int32) (o : Outcomes) (old : Option (List Char)) :
    Prog (Int32 × Option (List Char)) := do
  let some buffer ← Holding.tryAcquire o.malloc .buffer | do
    Holding.report "Failed to allocate buffer"
    pure (1, old)
  match fill (numbers.length * 12) [] numbers with
  | none => throw .outOfBounds
  | some text => do
    let some fd ← Holding.tryAcquire o.openFile .descriptor | do
      Holding.report "Failed to open file"
      Holding.releaseAll [(buffer, .free)]
      pure (1, old)
    -- from here on the file is truncated
    let some ring ← Holding.tryAcquire (o.queueInit = 0) .ring | do
      Holding.report "io_uring setup failed"
      Holding.releaseAll [(fd, .close), (buffer, .free)]
      pure (1, some [])
    if o.getSqe then
      let file := text.take o.res.toInt.toNat
      if o.waitCqe < 0 then
        Holding.report ("Error waiting for completion: " ++ String.ofList (decimal o.waitCqe))
        Holding.releaseAll [(ring, .queueExit), (fd, .close), (buffer, .free)]
        pure (1, some file)
      else if o.res < 0 then
        Holding.report ("Write failed: " ++ String.ofList (decimal o.res))
        Holding.releaseAll [(ring, .queueExit), (fd, .close), (buffer, .free)]
        pure (1, some file)
      else
        Holding.releaseAll [(ring, .queueExit), (fd, .close), (buffer, .free)]
        pure (0, some file)
    else
      Holding.report "Could not get SQE."
      Holding.releaseAll [(ring, .queueExit), (fd, .close), (buffer, .free)]
      pure (1, some [])

theorem fill_eq {size : Nat} {buffer : List Char} {xs : List Int32} :
    fill size buffer xs = if xs = [] ∨ buffer.length + (text xs).length + 1 ≤ size then
      some (buffer ++ text xs) else none := by
  induction xs generalizing buffer with
  | nil => simp [fill]
  | cons x xs ih =>
    rw [fill, sprintf]
    by_cases hroom : buffer.length + (decimal x ++ ['\n']).length + 1 ≤ size
    · simp only [if_pos hroom, ih, text_cons, List.append_assoc]
      refine if_congr ?_ rfl rfl
      simp only [List.length_append] at hroom ⊢
      constructor
      · rintro (rfl | hfit)
        · right
          simp only [text_nil, List.length_nil]
          simpa [Nat.add_assoc] using hroom
        · exact Or.inr (by omega)
      · rintro (hnil | hfit)
        · cases hnil
        · exact Or.inr (by omega)
    · simp only [if_neg hroom]
      rw [if_neg]
      rintro (hnil | hfit)
      · cases hnil
      · rw [text_cons, List.length_append] at hfit
        omega

open EarlyExit Holding

section

variable {o : Outcomes} {numbers : List Int32} {text : List Char}

end

end TextFile

end IoUring
