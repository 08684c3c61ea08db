import GoodCommand.Fio.Values

/-! `get_fio_result` and `processing` of `parase_fio.py`. -/

namespace GoodCommand.Fio

inductive Loaded (N : Type) where
  | unreadable
  | invalid
  | document (oneFileDict : Json N)

variable {N : Type} (py : Numbers N) (load : String → Loaded N)

/-- `fio_result[key] += x`. -/
def addTo (fioResult : Result N) (key : String) (x : Json N) : Except PyErr (Result N) := do
  let sum ← pyAdd py (← resultItem fioResult key) x
  return fioResult.set key sum

/-- The body of `for one_job in one_file_dict['jobs']`. -/
def addJob (rw : Json N) (fioResult : Result N) (oneJob : Json N) : Except PyErr (Result N) := do
  let fioResult ← addTo py fioResult "bw_KiB" (← getPath py oneJob [rw, .str "bw"])
  let fioResult ← addTo py fioResult "iops" (← getPath py oneJob [rw, .str "iops"])
  let fioResult ←
    addTo py fioResult "lat_ns_mean" (← getPath py oneJob [rw, .str "lat_ns", .str "mean"])
  let jobMax ← getPath py oneJob [rw, .str "lat_ns", .str "max"]
  let before ← resultItem fioResult "lat_ns_max"
  return fioResult.set "lat_ns_max" (if ← pyGe py jobMax before then jobMax else before)

/-- `fio_result[option] = one_file_dict['global options'][option]`. -/
def addOption (globalOptions : Json N) (fioResult : Result N) (option : Json N) :
    Except PyErr (Result N) := do
  let value ← getItem py globalOptions option
  match option with
  | .str key => return fioResult.set key value
  -- an index into a list of options: what is stored under it is not read, as a list has no `rw`
  | _ => return fioResult

/-- `rw` without the `rand` of `randread` and `randwrite`. -/
def jobRw (rw : Json N) : Json N :=
  let rw := if eqStr rw "randread" then .str "read" else rw
  if eqStr rw "randwrite" then .str "write" else rw

def hostName (jsonFile : String) : String :=
  String.ofList ((basename jsonFile).toList.takeWhile (· ≠ '-'))

/-- What `get_fio_result` makes of a file that was parsed. -/
def fioResultOf (jsonFile : String) (oneFileDict : Json N) : Except PyErr (Result N) := do
  let fioResult : Result N := Dict.empty.set "host_name" (.str (hostName jsonFile))
  let globalOptions ← getItem py oneFileDict (.str "global options")
  let fioResult ← (← iterate globalOptions).foldlM (addOption py globalOptions) fioResult
  let jobs ← iterate (← getItem py oneFileDict (.str "jobs"))
  let fioResult := fioResult.set "numjobs" (.num (py.ofNat jobs.length))
  let rw ← getItem py globalOptions (.str "rw")
  let fioResult := fioResult.set "bw_KiB" (.num (py.ofNat 0))
  let fioResult := fioResult.set "iops" (.num (py.ofNat 0))
  let fioResult := fioResult.set "lat_ns_mean" (.num (py.ofNat 0))
  let fioResult := fioResult.set "lat_ns_max" (.num (py.ofNat 0))
  let fioResult ← jobs.foldlM (addJob py (jobRw rw)) fioResult
  let mean ← pyDiv py (← resultItem fioResult "lat_ns_mean") (← resultItem fioResult "numjobs")
  return fioResult.set "lat_ns_mean" mean

/-- `get_fio_result(json_file)`; `none` is `False`, which it returns for a file that is not JSON. -/
def getFioResult (jsonFile : String) : Except PyErr (Option (Result N)) :=
  match load jsonFile with
  | .unreadable => .error .osError
  | .invalid => .ok none
  | .document oneFileDict => (fioResultOf py jsonFile oneFileDict).map some

/-! ### `processing` -/

/-- What `csv_write.writerow` is given: the key view or the value view of a result. -/
inductive View (N : Type) where
  | keys (fioResult : Result N)
  | values (fioResult : Result N)

def View.cells : View N → List (Json N)
  | .keys fioResult => fioResult.keys.map .str
  | .values fioResult => fioResult.values

inductive Message (N : Type) where
  | error (jsonFile : String)
  | headLineNotTheSame (dataLine : List (Json N)) (oneHeadLine : List String)

/-- The locals of `processing`, the rows of the CSV file and what has been printed. `head_line` is a
key view, or the empty list that it starts as; nothing sets `data_line`. -/
structure Proc (N : Type) where
  headLine : Option (Result N)
  dataLine : List (Json N)
  csv : List (View N)
  printed : List (Message N)

def Proc.start : Proc N := ⟨none, [], [], []⟩

def Proc.headLen (st : Proc N) : ℕ :=
  match st.headLine with
  | none => 0
  | some head => head.keys.length

/-- `head_line == one_head_line`: a list is no key view, and key views are compared as sets. -/
def Proc.headEq (st : Proc N) (fioResult : Result N) : Bool :=
  match st.headLine with
  | none => false
  | some head => head.sameKeys fioResult

/-- The body of `if one_file.endswith(".json")`; an exception leaves the rows written so far. -/
def processFile (st : Proc N) (oneFileFullPath : String) : Except (PyErr × Proc N) (Proc N) :=
  match getFioResult py load oneFileFullPath with
  | .error e => .error (e, st)
  -- `False.keys()`
  | .ok none => .error (.attributeError,
      ⟨st.headLine, st.dataLine, st.csv, st.printed ++ [.error oneFileFullPath]⟩)
  | .ok (some fioResult) =>
    let st : Proc N :=
      if st.headLen = 0 then
        ⟨some fioResult, st.dataLine, st.csv ++ [.keys fioResult], st.printed⟩
      else st
    if st.headEq fioResult then
      .ok ⟨st.headLine, st.dataLine, st.csv ++ [.values fioResult], st.printed⟩
    else
      .ok ⟨st.headLine, st.dataLine, st.csv,
        st.printed ++ [.headLineNotTheSame st.dataLine fioResult.keys]⟩

/-- `processing(dir_name)`, where `os.walk(dir_name)` gives the directories `walk` with the files in
each. -/
def processing (walk : List (String × List String)) : Except (PyErr × Proc N) (Proc N) :=
  walk.foldlM (fun st dir =>
    dir.2.foldlM (fun st oneFile =>
      if isJson oneFile then processFile py load st (join dir.1 oneFile) else .ok st) st) Proc.start

/-- The rows of the CSV file at the end of a run, also of one that an exception ended. -/
def csvOf : Except (PyErr × Proc N) (Proc N) → List (View N)
  | .ok st => st.csv
  | .error (_, st) => st.csv

end GoodCommand.Fio
