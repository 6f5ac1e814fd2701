import ClassicAsp.Service

/-! Requests to a service and its answers, one at a time and in a row. -/

namespace ClassicAsp

/-- What a service can be asked. -/
inductive Request where
  | format (text : List Char)
  | formatDocument (id : String) (text : List Char)
  | formatDocumentWith (config : Config) (id : String) (text : List Char)
  | analyze (id : String) (text : List Char)
  | position (id : String) (text : List Char) (offset : Nat)
  | table
  | warning
  | invalidate (id : String)
  | clear
  deriving DecidableEq, Repr

/-- What a service answers. -/
inductive Answer where
  | text (text : List Char)
  | formatted (out : Formatted)
  | analysis (result : NumberedAnalysis)
  | position (found : Option Position)
  | table (number : Nat) (table : CaseTable)
  | warning (found : Option Diagnostic)
  | done
  deriving Repr

namespace Service

variable {κ : Type} [DecidableEq κ]

/-- Answers a request. -/
def answer (fingerprint : List Char → κ) (s : Service κ) (w : Surroundings) :
    Request → Answer × Service κ
  | .format text =>
    let (out, s) := s.formatWith w s.config text
    (.text out.text, s)
  | .formatDocument id text =>
    let (out, s) := s.formatDocument w id text
    (.formatted out, s)
  | .formatDocumentWith config id text =>
    let (out, s) := s.formatDocumentWith w config id text
    (.formatted out, s)
  | .analyze id text =>
    let (result, s) := s.analyze fingerprint w id text
    (.analysis result, s)
  | .position id text offset =>
    let (found, s) := s.positionAt fingerprint w id text offset
    (.position found, s)
  | .table =>
    let ((number, table), s) := s.table w
    (.table number table, s)
  | .warning =>
    let (found, s) := s.tableWarning w
    (.warning found, s)
  | .invalidate id => (.done, s.invalidate id)
  | .clear => (.done, s.clear)

/-- Answers requests in a row, each in surroundings of its own. -/
def run (fingerprint : List Char → κ) (s : Service κ) :
    List (Surroundings × Request) → List Answer × Service κ
  | [] => ([], s)
  | (w, request) :: rest =>
    let (first, s) := s.answer fingerprint w request
    let (answers, s) := s.run fingerprint rest
    (first :: answers, s)

end Service

end ClassicAsp
