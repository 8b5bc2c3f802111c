import IoUring.Deferred
import IoUring.Holding
import IoUring.Plain

/-! fread.c as a whole program: what its `main` hands to `write`, what it prints and reports,
and what it gives back. -/

namespace IoUring

namespace Plain

inductive Kind where
  | handle | descriptor
deriving DecidableEq

inductive Deallocator where
  | free | close
deriving DecidableEq

def Kind.deallocator : Kind → Deallocator
  | .handle => .free
  | .descriptor => .close

abbrev World := Holding.World Kind Deallocator

abbrev Prog := Holding.Prog Kind Deallocator

/-- The answers to the calls for one file. `content` is `none` if it cannot be opened,
`kernel i` is the `i`-th `read`, and `buffer` is what the stack holds of `buffer` at first.
`duration` is the time that its loop takes, as it is printed. -/
structure Outcomes where
  filename : String
  alloc : Bool
  content : Option (List UInt8)
  kernel : Nat → Kernel
  buffer : Nat → UInt8
  fstat : Option Deferred.Stat
  duration : String

/-- A `MY_FILE` with what it owns. -/
structure Owned where
  addr : Held Kind
  descriptor : Held Kind
  file : MyFile

def myFopen (o : Outcomes) : Prog (Option Owned) := do
  let some addr ← Holding.tryAcquire o.alloc .handle | do
    Holding.report "Failed to allocate memory for MY_FILE"
    pure none
  match o.content with
  | none => do
    Holding.report "Failed to open file"
    Holding.releaseAll [(addr, .free)]
    pure none
  | some content => do
    let descriptor ← Holding.acquire .descriptor
    pure (some ⟨addr, descriptor, opened content⟩)

def myFclose (mf : Owned) : Prog Unit :=
  Holding.releaseAll [(mf.descriptor, .close), (mf.addr, .free)]

/-- `my_fread` of an open file, with its message. -/
def fread (kernel : Kernel) (buffer : Nat → UInt8) (size count : UInt64) (file : MyFile) :
    Prog FreadResult := do
  if (kernel file.fd (size * count)).isNone then
    Holding.report "Failed to read file"
  match myFread kernel (some buffer) size count (some file) with
  | none => throw .divideByZero
  | some r => pure r

/-- The loop of `my_cat`, in at most `left` rounds. -/
def catLoop (kernel : Nat → Kernel) : Nat → Nat → (Nat → UInt8) → MyFile → Prog Unit
  | 0, _, _, _ => throw .endless
  | left + 1, i, buffer, file => do
    let r ← fread (kernel i) buffer 1 1024 file
    if r.ret > 0 then
      Holding.write ((List.range r.ret.toNat).map (r.ptr.getD buffer))
      catLoop kernel left (i + 1) (r.ptr.getD buffer) (r.stream.getD file)
    else pure ()

def getFileSize (o : Outcomes) : Prog Int64 :=
  match o.fstat with
  | none => do
    Holding.report "fstat"
    pure (-1)
  | some (.block none) => do
    Holding.report "ioctl"
    pure (-1)
  | some (.block (some bytes)) => pure bytes.toInt64
  | some (.regular size) => pure size
  | some .other => pure (-1)

/-- The line that `my_cat` prints behind a file. -/
def Outcomes.completed (o : Outcomes) (size : Int64) : String :=
  "Completed reading '" ++ o.filename ++ "': Duration = " ++ o.duration ++
    " seconds, File Size = " ++ toString size ++ " bytes.\n"

def myCat (turns : Nat) (o : Outcomes) : Prog Unit := do
  let some mf ← myFopen o | Holding.report "Failed to open file with my_fopen"
  catLoop o.kernel turns 0 o.buffer mf.file
  let size ← getFileSize o
  Holding.report (o.completed size)
  myFclose mf

/-- The loop of `main`. -/
def catFiles (turns : Nat) : List Outcomes → Prog Unit
  | [] => pure ()
  | o :: os => do
    myCat turns o
    catFiles turns os

def usage (program : String) : String := "Usage: " ++ program ++ " <filename>\n"

/-- The two lines that `main` prints behind the files, with the times as they are printed. -/
def totals (files : Nat) (total average : String) : List String :=
  ["Total time to read " ++ toString files ++ " files: " ++ total ++ " seconds\n",
    "Average time per read file: " ++ average ++ " seconds\n"]

/-- `main`, with the loop of each `my_cat` in at most the given number of rounds. -/
def main (turns : Nat) (program total average : String) (os : List Outcomes) : Prog Int32 :=
  if os = [] then do
    Holding.report (usage program)
    pure 1
  else do
    catFiles turns os
    (totals os.length total average).forM Holding.report
    pure 0

/-- `read` as it is documented: it stores a first part of what is left, no longer than it was
asked for, and nothing only at the end. -/
structure Kernel.Reads (kernel : Kernel) : Prop where
  part : ∀ d n data, kernel d n = some data → data <+: d.content.drop d.pos
  fits : ∀ d n data, kernel d n = some data → data.length ≤ n.toNat
  progress : ∀ d n, kernel d n = some [] → n ≠ 0 → d.content.length ≤ d.pos

theorem fullReads_reads : fullReads.Reads where
  part := by
    rintro d n data ⟨⟩
    exact List.take_prefix _ _
  fits := by
    rintro d n data ⟨⟩
    rw [Cursor.length_read]
    exact Nat.min_le_left _ _
  progress := by
    intro d n h hn
    have hnil : Cursor.read d.content d.pos n.toNat = [] := Option.some.inj h
    have hne : n.toNat ≠ 0 := fun he => hn (UInt64.toNat_inj.mp he)
    simpa [hne] using Cursor.read_eq_nil_iff.mp hnil

open EarlyExit Holding

section

variable {kernel : Kernel} {buffer : Nat → UInt8} {file : MyFile}

theorem fread_failed (h : kernel file.fd 1024 = none) (w : World) :
    fread kernel buffer 1 1024 file w =
      .ok ⟨0, some buffer, some file⟩ { w with log := w.log ++ ["Failed to read file"] } := by
  have htotal : (1 : UInt64) * 1024 = 1024 := by decide
  rw [fread, myFread, htotal, h]
  rfl

theorem fread_data {data : List UInt8} (h : kernel file.fd 1024 = some data) (w : World) :
    fread kernel buffer 1 1024 file w =
      .ok ⟨UInt64.ofNat data.length, some (memcpy buffer 0 data),
        some ⟨⟨file.fd.content, file.fd.pos + data.length⟩,
          file.pos + UInt64.ofNat data.length⟩⟩ w := by
  have htotal : (1 : UInt64) * 1024 = 1024 := by decide
  have hone : (1 : UInt64) ≠ 0 := by decide
  simp only [fread, myFread, htotal, h, if_neg hone, UInt64.div_one]
  rfl

end

/-- What is printed from the position of `d` on, and what is reported: all that is left, or a
first part of it, behind which a `read` has failed. -/
inductive Copied (kernel : Nat → Kernel) (d : Description) : List UInt8 → List String → Prop where
  | whole : Copied kernel d (d.content.drop d.pos) []
  | cut (out : List UInt8) (i : Nat) : out <+: d.content.drop d.pos →
      kernel i ⟨d.content, d.pos + out.length⟩ 1024 = none →
      Copied kernel d out ["Failed to read file"]

theorem Copied.append {kernel : Nat → Kernel} {d : Description} {data out : List UInt8}
    {msgs : List String} (hdata : data <+: d.content.drop d.pos)
    (h : Copied kernel ⟨d.content, d.pos + data.length⟩ out msgs) :
    Copied kernel d (data ++ out) msgs := by
  obtain ⟨rest, hrest⟩ := hdata
  have hdrop : d.content.drop (d.pos + data.length) = rest := by
    rw [← List.drop_drop, ← hrest, List.drop_left]
  cases h with
  | whole =>
    change Copied kernel d (data ++ d.content.drop (d.pos + data.length)) []
    rw [hdrop, hrest]
    exact .whole
  | cut out i hout hfail =>
    change out <+: d.content.drop (d.pos + data.length) at hout
    rw [hdrop] at hout
    apply Copied.cut _ i
    · rw [← hrest]
      exact (List.prefix_append_right_inj data).mpr hout
    · rwa [List.length_append, ← Nat.add_assoc]

/-- The loop comes to its end, and prints the bytes of the file in order. -/
theorem catLoop_copied {kernel : Nat → Kernel} (h : ∀ i, (kernel i).Reads) {turns i : Nat}
    {buffer : Nat → UInt8} {file : MyFile}
    (ht : file.fd.content.length - file.fd.pos < turns) (w : World) :
    ∃ out msgs, catLoop kernel turns i buffer file w =
        .ok () { w with out := w.out ++ out, log := w.log ++ msgs } ∧
      Copied kernel file.fd out msgs := by
  induction turns generalizing i buffer file w with
  | zero => omega
  | succ turns ih =>
    cases hread : kernel i file.fd 1024 with
    | none =>
      refine ⟨[], ["Failed to read file"], ?_, .cut [] i List.nil_prefix hread⟩
      rw [catLoop, bind_of_ok (fread_failed hread w), List.append_nil]
      rfl
    | some data =>
      have hpart := (h i).part _ _ _ hread
      have hfits : data.length ≤ 1024 := (h i).fits _ _ _ hread
      have hle := hpart.length_le
      rw [List.length_drop] at hle
      have hret : (UInt64.ofNat data.length).toNat = data.length := by
        rw [UInt64.toNat_ofNat', Nat.mod_eq_of_lt (by omega)]
      rw [catLoop, bind_of_ok (fread_data hread w)]
      by_cases hnil : data = []
      · subst hnil
        have hend := (h i).progress _ _ hread (by decide)
        have hrest : file.fd.content.drop file.fd.pos = [] := List.drop_of_length_le hend
        refine ⟨[], [], ?_, hrest ▸ .whole⟩
        rw [List.append_nil, List.append_nil]
        rfl
      · have hlen : 0 < data.length := List.length_pos_iff.mpr hnil
        have hpos : UInt64.ofNat data.length > 0 := UInt64.lt_iff_toNat_lt.mpr (by
          rw [hret]
          exact hlen)
        have hbytes : (List.range (UInt64.ofNat data.length).toNat).map (memcpy buffer 0 data) =
            data := by
          rw [hret]
          exact range_map_memcpy buffer data
        have hleft : file.fd.content.length - (file.fd.pos + data.length) < turns := by omega
        obtain ⟨out, msgs, hloop, hcopied⟩ := @ih (i + 1) (memcpy buffer 0 data)
          ⟨⟨file.fd.content, file.fd.pos + data.length⟩, file.pos + UInt64.ofNat data.length⟩
          hleft { w with out := w.out ++ data }
        refine ⟨data ++ out, msgs, ?_, hcopied.append hpart⟩
        simp only [if_pos hpos, Option.getD_some, hbytes]
        rw [← List.append_assoc]
        exact hloop

/-- What is reported behind the loop of `my_cat`. -/
def Outcomes.closing (o : Outcomes) : List String :=
  match o.fstat with
  | none => ["fstat", o.completed (-1)]
  | some (.block none) => ["ioctl", o.completed (-1)]
  | some stat => [o.completed (stat.size.getD (-1))]

theorem closing_reports (o : Outcomes) (next : Prog Unit) (w : World) :
    (do
      let size ← getFileSize o
      Holding.report (o.completed size)
      next : Prog Unit) w = next { w with log := w.log ++ o.closing } := by
  have htwo : ∀ msg, { w with log := w.log ++ [msg] ++ [o.completed (-1)] } =
      ({ w with log := w.log ++ [msg, o.completed (-1)] } : World) := by
    intro msg
    rw [List.append_assoc]
    rfl
  rw [getFileSize]
  cases hstat : o.fstat with
  | none =>
    rw [Outcomes.closing, hstat]
    exact congrArg next (htwo _)
  | some stat =>
    cases stat with
    | block bytes =>
      cases bytes with
      | none =>
        rw [Outcomes.closing, hstat]
        exact congrArg next (htwo _)
      | some bytes =>
        rw [Outcomes.closing, hstat]
        rfl
    | regular size | other =>
      rw [Outcomes.closing, hstat]
      rfl

/-- What is handed to `write` of one argument, and what is printed and reported. -/
inductive Outcomes.Printed (o : Outcomes) : List UInt8 → List String → Prop where
  | noMemory : o.alloc = false → o.Printed []
      ["Failed to allocate memory for MY_FILE", "Failed to open file with my_fopen"]
  | missing : o.alloc = true → o.content = none → o.Printed []
      ["Failed to open file", "Failed to open file with my_fopen"]
  | copied {content out : List UInt8} {msgs : List String} : o.alloc = true →
      o.content = some content → Copied o.kernel ⟨content, 0⟩ out msgs →
      o.Printed out (msgs ++ o.closing)

/-- `read` behaves as documented for this argument, and the rounds suffice. -/
structure Outcomes.Regular (o : Outcomes) (turns : Nat) : Prop where
  reads : ∀ i, (o.kernel i).Reads
  turns : ∀ content, o.content = some content → content.length < turns

theorem myCat_prints {turns : Nat} {o : Outcomes} (h : o.Regular turns) (w : World) :
    ∃ out msgs w', myCat turns o w = .ok () w' ∧ Settled Kind.deallocator w w' ∧
      w'.out = w.out ++ out ∧ w'.log = w.log ++ msgs ∧ o.Printed out msgs := by
  cases halloc : o.alloc with
  | false =>
    have hopen : myFopen o w = .ok none
        { w with log := w.log ++ ["Failed to allocate memory for MY_FILE"] } := by
      rw [myFopen, halloc]
      rfl
    let w₁ : World := { w with log := w.log ++ ["Failed to allocate memory for MY_FILE"] }
    refine ⟨[], _, { w₁ with log := w₁.log ++ ["Failed to open file with my_fopen"] }, ?_,
      .of_ledger rfl, (List.append_nil _).symm, List.append_assoc _ _ _, .noMemory halloc⟩
    rw [myCat, bind_of_ok hopen]
    rfl
  | true =>
    have hholds := (Holds.refl w).acquired .handle
    cases hcontent : o.content with
    | none =>
      have hown : ∀ x ∈ [(w.ledger.upcoming Kind.handle, Deallocator.free)],
          x.2 = x.1.kind.deallocator := by
        rintro x hx
        obtain rfl := List.mem_singleton.mp hx
        rfl
      let w₁ : World :=
        { w with ledger := w.ledger.acquire .handle, log := w.log ++ ["Failed to open file"] }
      have hledger : w₁.ledger = w.ledger.acquire .handle := rfl
      obtain ⟨w', hrun, hsettled, hout, hlog⟩ :=
        hholds.releaseAll (.of_ledger hledger) (List.Perm.refl _) hown
      have hopen : myFopen o w = .ok none w' := by
        rw [myFopen, halloc, hcontent]
        change (releaseAll _ >>= _) w₁ = _
        rw [bind_of_ok hrun]
        rfl
      refine ⟨[], _, { w' with log := w'.log ++ ["Failed to open file with my_fopen"] }, ?_,
        ⟨hsettled.live, hsettled.next_le, hsettled.released⟩, ?_, ?_, .missing halloc hcontent⟩
      · rw [myCat, bind_of_ok hopen]
        rfl
      · rw [List.append_nil]
        exact hout
      · change w'.log ++ _ = _
        rw [hlog]
        exact List.append_assoc _ _ _
    | some content =>
      let w₁ : World := { w with ledger := (w.ledger.acquire .handle).acquire .descriptor }
      let addr : Held Kind := w.ledger.upcoming .handle
      let descriptor : Held Kind := (w.ledger.acquire .handle).upcoming .descriptor
      have hopen : myFopen o w = .ok (some ⟨addr, descriptor, opened content⟩) w₁ := by
        rw [myFopen, halloc, hcontent]
        rfl
      obtain ⟨out, msgs, hloop, hcopied⟩ := @catLoop_copied _ h.reads turns 0 o.buffer
        (opened content) (h.turns content hcontent) w₁
      let w₂ : World :=
        { w₁ with out := w₁.out ++ out, log := w₁.log ++ msgs ++ o.closing }
      have hledger : w₂.ledger = w₁.ledger := rfl
      have hown : ∀ x ∈ [(descriptor, Deallocator.close), (addr, Deallocator.free)],
          x.2 = x.1.kind.deallocator := by
        simp [addr, descriptor, Ledger.upcoming, Kind.deallocator]
      obtain ⟨w', hrun, hsettled, hout, hlog⟩ :=
        (hholds.acquired .descriptor).releaseAll (.of_ledger hledger) (List.Perm.refl _) hown
      refine ⟨out, msgs ++ o.closing, w', ?_, hsettled, hout, ?_, .copied halloc hcontent hcopied⟩
      · rw [myCat, bind_of_ok hopen]
        change (catLoop o.kernel turns 0 o.buffer (opened content) >>= fun _ => _) w₁ = _
        rw [bind_of_ok hloop]
        exact (closing_reports o _ _).trans hrun
      · rw [hlog, ← List.append_assoc]

theorem catFiles_prints {turns : Nat} {os : List Outcomes} (h : ∀ o ∈ os, o.Regular turns)
    (w : World) :
    ∃ (parts : List (List UInt8 × List String)) (w' : World), catFiles turns os w = .ok () w' ∧
      Settled Kind.deallocator w w' ∧ w'.out = w.out ++ (parts.map Prod.fst).flatten ∧
      w'.log = w.log ++ (parts.map Prod.snd).flatten ∧
      List.Forall₂ (fun o p => o.Printed p.1 p.2) os parts := by
  induction os generalizing w with
  | nil => exact ⟨[], w, rfl, .of_ledger rfl, by simp, by simp, .nil⟩
  | cons o os ih =>
    obtain ⟨ho, hos⟩ := List.forall_mem_cons.mp h
    obtain ⟨out, msgs, w₁, hcat, hsettled, hout, hlog, hprinted⟩ := myCat_prints ho w
    obtain ⟨parts, w₂, hall, hsettled', houts, hlogs, hparts⟩ := ih hos w₁
    refine ⟨(out, msgs) :: parts, w₂, bind_eq_ok.mpr ⟨(), w₁, hcat, hall⟩,
      hsettled.trans hsettled', ?_, ?_, .cons hprinted hparts⟩
    · rw [houts, hout, List.map_cons, List.flatten_cons, List.append_assoc]
    · rw [hlogs, hlog, List.map_cons, List.flatten_cons, List.append_assoc]

/-- A `main` whose files are done prints its two lines and returns 0. -/
theorem main_of_catFiles {turns : Nat} {program total average : String} {os : List Outcomes}
    (hne : os ≠ []) {w w₁ : World} (h : catFiles turns os w = .ok () w₁) :
    main turns program total average os w =
      .ok 0 { w₁ with log := w₁.log ++ totals os.length total average } := by
  rw [main, if_neg hne, bind_of_ok h, totals, ← List.singleton_append, ← List.append_assoc]
  rfl

/-- The program comes to its end, with the status 0 if it has an argument, having closed and
freed all it took. It hands to `write` what `my_cat` does of each argument, in order, and
prints a line for each file that it has opened and two for all. -/
theorem main_prints {turns : Nat} {program total average : String} {os : List Outcomes}
    (h : ∀ o ∈ os, o.Regular turns) (w : World) :
    ∃ (parts : List (List UInt8 × List String)) (w' : World),
      main turns program total average os w = .ok (if os = [] then 1 else 0) w' ∧
      Settled Kind.deallocator w w' ∧ w'.out = w.out ++ (parts.map Prod.fst).flatten ∧
      w'.log = w.log ++ (if os = [] then [usage program] else
        (parts.map Prod.snd).flatten ++ totals os.length total average) ∧
      List.Forall₂ (fun o p => o.Printed p.1 p.2) os parts := by
  by_cases hne : os = []
  · subst hne
    exact ⟨[], { w with log := w.log ++ [usage program] }, rfl, .of_ledger rfl, by simp, by simp,
      .nil⟩
  · obtain ⟨parts, w₁, hall, hsettled, hout, hlog, hparts⟩ := catFiles_prints h w
    refine ⟨parts, { w₁ with log := w₁.log ++ totals os.length total average }, ?_,
      hsettled.trans (.of_ledger rfl), hout, ?_, hparts⟩
    · rw [if_neg hne]
      exact main_of_catFiles hne hall
    · rw [if_neg hne, ← List.append_assoc, ← hlog]

/-- The first of two files cannot be opened. -/
theorem main_prints_second :
    let os : List Outcomes := [⟨"a", true, none, fun _ => fullReads, fun _ => 0, none, "0.0"⟩,
      ⟨"b", true, some [65], fun _ => fullReads, fun _ => 0, some (.regular 1), "0.0"⟩]
    let w : World := Holding.World.start
    ∃ (parts : List (List UInt8 × List String)) (w' : World),
      main 2 "fread" "0.0" "0.0" os w = .ok (if os = [] then 1 else 0) w' ∧
      Settled Kind.deallocator w w' ∧ w'.out = w.out ++ (parts.map Prod.fst).flatten ∧
      w'.log = w.log ++ (if os = [] then [usage "fread"] else
        (parts.map Prod.snd).flatten ++ totals os.length "0.0" "0.0") ∧
      List.Forall₂ (fun o p => o.Printed p.1 p.2) os parts := by
  intro os w
  apply main_prints
  intro o ho
  simp only [os, List.mem_cons, List.not_mem_nil, or_false] at ho
  rcases ho with rfl | rfl
  · exact ⟨fun _ => fullReads_reads, by simp⟩
  · exact ⟨fun _ => fullReads_reads, by simp⟩

end Plain

end IoUring
