import Volforge.Adapters.GfdlCsv
import Volforge.Store.Vfday

/-!
# `Examples.Convert` — vendor archives into the day store

The loop of `convert.cpp`. Its archives are given in order, each with what the loader finds in it and what the file
system says of its size. The output directory is the list of its files, name and content; `disk` is what a path of it
holds once a file has been written there.
-/

namespace Volforge.Convert

open Gfdl

structure Options where
  load : GfdlLoadOptions := {}
  verify : Bool := true
  force : Bool := false

/-- What the path of an archive leads to. -/
inductive Input where
  | zip (members : List (Bytes × Option Bytes))
  /-- A directory of loose CSVs is one day. -/
  | csvDirectory (files : List (Bytes × Bytes))
  /-- The loader throws. -/
  | unreadable (e : Error)

structure Archive where
  path : Bytes
  input : Input
  /-- `fs::file_size`: that of a regular file; of a directory it is the implementation's to give, or to throw. -/
  fileSize : Except Error Nat

inductive Problem where
  | threw (path : Bytes) (e : Error)
  | noRows (path : Bytes)
  | warning (date : Date) (w : Warning)

structure Conversion where
  outdir : List (String × Bytes) := []
  converted : Nat := 0
  skipped : Nat := 0
  failed : Nat := 0
  totalRows : Nat := 0
  totalOut : Nat := 0
  totalIn : Nat := 0
  problems : List Problem := []
  /-- The exception that left `main`; nothing is done after it. -/
  thrown : Option Error := none

/-- The registry is per day. -/
def loadDay (options : GfdlLoadOptions) (a : Archive) : Except Error (InstrumentRegistry × GfdlDay) :=
  match a.input with
  | .zip members => loadGfdlZip {} a.path members options
  | .csvDirectory files => loadGfdlDay {} files options
  | .unreadable e => .error e

/-- The name of a day's file. -/
def outName (d : Date) : String := d.toText ++ ".vfday"

def removeFile (name : String) (outdir : List (String × Bytes)) : List (String × Bytes) :=
  outdir.filter (fun file => file.1 ≠ name)

def putFile (name : String) (content : Bytes) (outdir : List (String × Bytes)) : List (String × Bytes) :=
  removeFile name outdir ++ [(name, content)]

/-- `write_vfday` to a path: what the path holds then, and the figures. -/
def writeDay (disk : Bytes → Bytes) (session : SessionData) (path : String) (verify : Bool) :
    Except Error (Bytes × VfdayStats) := do
  let file ← writeVfday session
  let stats ← writeVerified disk session path verify
  return (disk file, stats)

namespace Conversion

def fail (s : Conversion) (p : Problem) : Conversion :=
  { s with failed := s.failed + 1, problems := s.problems ++ [p] }

/-- A day that was written. The size of its archive is asked for outside of any `try`. -/
def countDay (a : Archive) (day : GfdlDay) (stats : VfdayStats) (s : Conversion) : Conversion :=
  match a.fileSize with
  | .error e => { s with thrown := some e }
  | .ok inBytes =>
      { s with
        converted := s.converted + 1
        totalIn := s.totalIn + inBytes
        totalRows := s.totalRows + stats.rows
        totalOut := s.totalOut + stats.bytes
        problems := s.problems ++ day.warnings.map (.warning day.date) }

/-- A day that has rows. -/
def convertDay (o : Options) (disk : String → Bytes → Bytes) (a : Archive) (day : GfdlDay) (session : SessionData)
    (s : Conversion) : Conversion :=
  let out := outName day.date
  if !o.force && (s.outdir.lookup out).isSome then { s with skipped := s.skipped + 1 }
  else match writeDay (disk out) session out o.verify with
    | .error e =>
        -- never leave a half-written day behind
        { s.fail (.threw a.path e) with outdir := removeFile out s.outdir }
    | .ok (content, stats) => countDay a day stats { s with outdir := putFile out content s.outdir }

/-- One turn of the loop over archives, if it comes to it. -/
def convertArchive (o : Options) (disk : String → Bytes → Bytes) (s : Conversion) (a : Archive) : Conversion :=
  if s.thrown.isSome then s
  else match loadDay o.load a with
    | .error e => s.fail (.threw a.path e)
    | .ok (_, day) =>
        match day.session with
        | none => s.fail (.noRows a.path)
        | some session =>
            if day.rowsRead = 0 then s.fail (.noRows a.path)
            else convertDay o disk a day session.session s

end Conversion

/-- The conversion of archives into a directory that holds `outdir`. -/
def convert (o : Options) (disk : String → Bytes → Bytes) (archives : List Archive) (outdir : List (String × Bytes)) :
    Conversion :=
  archives.foldl (Conversion.convertArchive o disk) { outdir := outdir }

/-- `return failed == 0 ? 0 : 1;`, if `main` returns. -/
def exitCode (s : Conversion) : Option Nat := if s.thrown.isSome then none else if s.failed = 0 then some 0 else some 1

end Volforge.Convert
