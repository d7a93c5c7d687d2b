import LinuxServer.CString

/-!
# The request parser of `8-3_finite_stage_machine.cpp`

The parser is a state machine over one buffer: `parse_line` cuts off lines by
overwriting their CRLF with NULs, and `parse_requestline` and `parse_headers` then see
them as C strings.  The functions that the source passes references to take and return
the state they refer to.  An access outside the buffer makes the result `none`.  The
fuel of the two loops is the number of bytes still to be checked.
-/

namespace LinuxServer.Http
open CString

/-- `BUFFER_SIZE`. -/
def bufferSize : ℕ := 4096

/-- `enum CHECK_STATE`. -/
inductive CheckState
  | requestline
  | header
  | content
  deriving DecidableEq, Repr

/-- `enum LINE_STATUS`. -/
inductive LineStatus
  | ok
  | bad
  | «open»
  deriving DecidableEq, Repr

/-- `enum HTTP_CODE`. -/
inductive HttpCode
  | noRequest
  | getRequest
  | badRequest
  | forbiddenRequest
  | internalError
  | closedConnection
  deriving DecidableEq, Repr

/-- The lines that the parser prints: `The request method is GET`, `The request URL is: %s`,
`the request host is: %s` and `I can not handle this header`. -/
inductive Printed
  | method
  | url (s : List UInt8)
  | host (s : List UInt8)
  | otherHeader
  deriving DecidableEq, Repr

def cr : UInt8 := 13
def lf : UInt8 := 10
def slash : UInt8 := 47
/-- `" \t"`. -/
def blanks : List UInt8 := [32, 9]
/-- `"GET"`. -/
def litGet : List UInt8 := [71, 69, 84]
/-- `"HTTP/1.1"`. -/
def litVersion : List UInt8 := [72, 84, 84, 80, 47, 49, 46, 49]
/-- `"http://"`. -/
def litHttp : List UInt8 := [104, 116, 116, 112, 58, 47, 47]
/-- `"Host:"`. -/
def litHost : List UInt8 := [72, 111, 115, 116, 58]

/-- The local variables of `main` that the parser works on. -/
structure Parser where
  buffer : List UInt8
  checkedIndex : ℕ
  checkstate : CheckState
  readIndex : ℕ
  startLine : ℕ
  printed : List Printed
  deriving DecidableEq, Repr

/-- `main` before its receive loop: a zeroed buffer, all indices 0. -/
def start : Parser where
  buffer := List.replicate bufferSize 0
  checkedIndex := 0
  checkstate := .requestline
  readIndex := 0
  startLine := 0
  printed := []

/-- The loop of `parse_line`, with the number of bytes left to check. -/
def parseLineLoop : ℕ → Parser → Option (LineStatus × Parser)
  | 0, s => some (.open, s)
  | n + 1, s => do
    let temp ← s.buffer[s.checkedIndex]?
    if temp = cr then
      if s.checkedIndex + 1 = s.readIndex then some (.open, s)
      else
        let c ← s.buffer[s.checkedIndex + 1]?
        if c = lf then
          let b ← write s.buffer s.checkedIndex 0
          let b ← write b (s.checkedIndex + 1) 0
          some (.ok, { s with buffer := b, checkedIndex := s.checkedIndex + 2 })
        else some (.bad, s)
    else if temp = lf then
      if 1 < s.checkedIndex then
        let c ← s.buffer[s.checkedIndex - 1]?
        if c = cr then
          let b ← write s.buffer (s.checkedIndex - 1) 0
          let b ← write b s.checkedIndex 0
          some (.ok, { s with buffer := b, checkedIndex := s.checkedIndex + 1 })
        else some (.bad, s)
      else some (.bad, s)
    else parseLineLoop n { s with checkedIndex := s.checkedIndex + 1 }

/-- `parse_line`. -/
def parseLine (s : Parser) : Option (LineStatus × Parser) :=
  parseLineLoop (s.readIndex - s.checkedIndex) s

/-- The end of `parse_requestline`, from the test for `http://` on. -/
def parseUrl (szURL : ℕ) (s : Parser) : Option (HttpCode × Parser) := do
  let isHttp ← strncasecmp s.buffer szURL litHttp
  let szURL ← (if isHttp then strchr s.buffer (szURL + 7) slash else some (some szURL))
  match szURL with
  | none => some (.badRequest, s)
  | some szURL =>
    let c ← s.buffer[szURL]?
    if c ≠ slash then some (.badRequest, s)
    else
      let url ← str s.buffer szURL
      some (.noRequest, { s with checkstate := .header, printed := s.printed ++ [.url url] })

/-- The middle of `parse_requestline`: it cuts off and checks the version. -/
def parseVersion (szURL : ℕ) (s : Parser) : Option (HttpCode × Parser) := do
  let szVersion ← strpbrk s.buffer szURL blanks
  match szVersion with
  | none => some (.badRequest, s)
  | some szVersion =>
    let b ← write s.buffer szVersion 0
    let s := { s with buffer := b }
    let szVersion := szVersion + 1
    let k ← strspn s.buffer szVersion blanks
    let szVersion := szVersion + k
    let isVersion ← strcasecmp s.buffer szVersion litVersion
    if !isVersion then some (.badRequest, s) else parseUrl szURL s

/-- `parse_requestline(szTemp, checkstate)`. -/
def parseRequestline (szTemp : ℕ) (s : Parser) : Option (HttpCode × Parser) := do
  let szURL ← strpbrk s.buffer szTemp blanks
  match szURL with
  | none => some (.badRequest, s)
  | some szURL =>
    let b ← write s.buffer szURL 0
    let s := { s with buffer := b }
    let szURL := szURL + 1
    let szMethod := szTemp
    let isGet ← strcasecmp s.buffer szMethod litGet
    if !isGet then some (.badRequest, s)
    else
      let s := { s with printed := s.printed ++ [.method] }
      let k ← strspn s.buffer szURL blanks
      let szURL := szURL + k
      parseVersion szURL s

/-- `parse_headers(szTemp)`. -/
def parseHeaders (szTemp : ℕ) (s : Parser) : Option (HttpCode × Parser) := do
  let c ← s.buffer[szTemp]?
  if c = 0 then some (.getRequest, s)
  else
    let isHost ← strncasecmp s.buffer szTemp litHost
    if isHost then
      let szTemp := szTemp + 5
      let k ← strspn s.buffer szTemp blanks
      let szTemp := szTemp + k
      let host ← str s.buffer szTemp
      some (.noRequest, { s with printed := s.printed ++ [.host host] })
    else some (.noRequest, { s with printed := s.printed ++ [.otherHeader] })

/-- The loop of `parse_content` and the test after it. -/
def parseContentLoop : ℕ → Parser → Option (HttpCode × Parser)
  | 0, _ => none
  | n + 1, s => do
    let (linestatus, s) ← parseLine s
    match linestatus with
    | .ok =>
      let szTemp := s.startLine
      let s := { s with startLine := s.checkedIndex }
      match s.checkstate with
      | .requestline =>
        let (retcode, s) ← parseRequestline szTemp s
        if retcode = .badRequest then some (.badRequest, s) else parseContentLoop n s
      | .header =>
        let (retcode, s) ← parseHeaders szTemp s
        if retcode = .badRequest then some (.badRequest, s)
        else if retcode = .getRequest then some (.getRequest, s)
        else parseContentLoop n s
      | .content => some (.internalError, s)
    | .open => some (.noRequest, s)
    | .bad => some (.badRequest, s)

/-- `parse_content`. -/
def parseContent (s : Parser) : Option (HttpCode × Parser) :=
  parseContentLoop (s.readIndex - s.checkedIndex + 1) s

/-- A `recv` that stores `chunk` at `buffer + read_index`, and the update of `read_index`. -/
def recv (s : Parser) (chunk : List UInt8) : Option Parser :=
  if s.readIndex + chunk.length ≤ s.buffer.length then
    some { s with
      buffer := s.buffer.take s.readIndex ++ chunk ++ s.buffer.drop (s.readIndex + chunk.length)
      readIndex := s.readIndex + chunk.length }
  else none

/-- The receive loop of `main`, fed with the chunks that `recv` returns, up to the first
result other than `NO_REQUEST`. -/
def recvLoop : Parser → List (List UInt8) → Option (HttpCode × Parser)
  | s, [] => some (.noRequest, s)
  | s, chunk :: chunks => do
    let s ← recv s chunk
    let (result, s) ← parseContent s
    if result = .noRequest then recvLoop s chunks else some (result, s)

end LinuxServer.Http
