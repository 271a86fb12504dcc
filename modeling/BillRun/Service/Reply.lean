import BillRun.Json.Reader
import BillRun.Service.Address
import BillRun.Service.Request
import BillRun.Settings.Load
import BillRun.Text.Encoding
import BillRun.Text.Upper

/-! Replies of the service.

The front page names the program; pages that describe the service are known by their paths alone. A
request for a bill run is answered with the invoice, with nothing when there is nothing to bill, or
with the reason why the run was refused; a request that does not read is answered with the remarks
on it. A reply shows the names in an invoice, and remarks show what they are about: where these
cannot be sent, that is a fault. Faults are passed on and are no reply.

The reply for an invoice is a form that `Request` reads as an issued invoice. -/
namespace BillRun.Service

open Calendar Form Scalars

/-! ### Writing -/

variable [Scalars]

/-- The item as a form, with null for what it does not have. -/
def ofItem (i : Item) : Json := .record
  [("id", writeUuid i.id),
    ("item_type", .string i.charge.kind.name),
    ("invoice_id", writeUuid i.invoice),
    ("subscription_id", writeUuid i.charge.subscription),
    ("plan_name", .string i.charge.plan),
    ("phase_name", .string i.charge.phase),
    ("start_date", writeMoment i.charge.start),
    ("end_date", .ofOption writeMoment i.charge.stop),
    ("amount", writeAmount i.charge.amount),
    ("currency", .string i.charge.currency),
    ("created_date", writeMoment i.created),
    ("rate", .ofOption writeAmount i.charge.basis.rate?),
    ("reversed_item_id", .ofOption writeUuid i.reverses)]

/-- The invoice with its totals, which may be too large to write. -/
def ofInvoice (v : Invoice) : Except Fault Json := do
  let total ← v.total
  let charged ← v.charged
  let credited ← v.credited
  return .record
    [("id", writeUuid v.id),
      ("account_id", writeUuid v.account),
      ("invoice_date", writeMoment v.date),
      ("target_date", writeMoment v.target),
      ("currency", .string v.currency),
      ("items", .array (v.items.map ofItem)),
      ("total_amount", writeAmount total),
      ("charged_amount", writeAmount charged),
      ("credited_amount", writeAmount credited)]

def ofPlace : Place → Json
  | .field name => .string name
  | .index n => .int n

/-- A remark with its place in the body. -/
def ofRemark (r : Remark) : Json :=
  .record
    [("type", .string r.complaint.name), ("loc", .array (.string "body" :: r.place.map ofPlace))]

/-- The body of a refusal. -/
def detail (message : String) : Json := .record [("detail", .string message)]

/-! ### Answering -/

/-- A status and a body, which is null when there is none. -/
structure Reply where
  status : Nat
  body : Json

/-- The reply to a body that does not read. -/
def unreadable (body : Json) (remarks : List Remark) : Except Fault Reply :=
  let subjects := remarks.filterMap (·.subject? body)
  if !subjects.all Json.isFinite then .error .notFinite
  else if !subjects.all Json.isPaired then .error .unpaired
  else .ok ⟨422, .array (remarks.map ofRemark)⟩

/-- The run that a request asks for, at the present of the request or else at the given one. -/
def Request.run (r : Request) (terms : Terms) (present : Moment) (ids : Nat → Uuid) :
    Except Fault (Option Invoice) :=
  let occasion : Occasion := ⟨terms, r.now.getD present, ids⟩
  occasion.run r.events r.issued ⟨r.account, r.target, r.currency⟩

/-- The reply to the body of a request for a bill run. -/
def generate (terms : Terms) (present : Moment) (ids : Nat → Uuid) (body : Json) :
    Except Fault Reply :=
  match request body with
  | .fault f => .error f
  | .remarks rs => unreadable body rs
  | .value r =>
    match r.run terms present ids with
    | .error f => if f.refused then .ok ⟨400, detail f.message⟩ else .error f
    | .ok none => .ok ⟨204, .null⟩
    | .ok (some v) => do
      let j ← ofInvoice v
      if j.isPaired then return ⟨200, j⟩ else throw .unpairedName

/-- What a request may carry. -/
inductive Body where
  | empty
  | value (j : Json)
  | text (s : LooseText)

/-- Nothing, or the fault that keeps a body from being sent. -/
def Body.send : Body → Except Fault Unit
  | empty => .ok ()
  | value j =>
    if !j.isFinite then .error .notFinite else if !j.isPaired then .error .unpaired else .ok ()
  | text s => discard s.send

/-- Null as a value is no body; null in writing is one. -/
def answerBody (terms : Terms) (present : Moment) (ids : Nat → Uuid) (body : Body) :
    Except Fault Reply :=
  match body with
  | .empty | .value .null | .text (.text "") => unreadable .null [⟨[], .missing⟩]
  | .value j => generate terms present ids j
  | .text s =>
    let illegible : Reply := ⟨400, detail "There was an error parsing the body"⟩
    match (s.text?.bind Text.Encoding.decode?).map Json.readLoose with
    | some (.ok j) => generate terms present ids j
    | some (.error (.malformed offset)) => unreadable .null [⟨[.index offset], .badSyntax⟩]
    | some (.error .unreadable) | none => .ok illegible

/-- What the program is called, and that it runs. -/
def frontPage : Reply := ⟨200, .record
  [("app", .string Settings.standard.appName), ("version", .string Settings.standard.version),
    ("status", .string "running")]⟩

/-- Whether a path leads to a route. A line break at the end does not count, and neither do slashes
after what is no root. -/
def leads (path : List Char) (route : String) : Bool :=
  let bare := (path.reverse.dropWhile (· = '/')).reverse
  [path, bare].any fun p => p = route.toList || p = route.toList ++ ['\n']

/-- Where pages that describe the service can be read. -/
def descriptions : List String := ["/openapi.json", "/docs", "/docs/oauth2-redirect", "/redoc"]

/-- The reply to a request. What cannot be addressed or sent fails before a route is looked for. -/
def answer (terms : Terms) (present : Moment) (ids : Nat → Uuid) (method address : LooseText)
    (body : Body) : Except Fault Reply := do
  let address ← Address.read address
  body.send
  let path ← address.route
  let method := method.text?.map Text.upper
  let notAllowed : Reply := ⟨405, detail "Method Not Allowed"⟩
  let reply : Reply ←
    if leads path "/" then pure (if method = some "GET" then frontPage else notAllowed)
    else if leads path "/v1/invoices/generate" then
      if method = some "POST" then answerBody terms present ids body else pure notAllowed
    else if descriptions.any (leads path) then
      pure (if method = some "GET" ∨ method = some "HEAD" then ⟨200, .null⟩ else notAllowed)
    else pure ⟨404, detail "Not Found"⟩
  -- a request for the head alone is answered without a body
  return if method = some "HEAD" then { reply with body := .null } else reply

/-! ### Chains of requests -/

/-- The body with further issued invoices. -/
def withIssued (more : List Json) : Json → Json
  | .object members =>
    let name := "existing_invoices"
    let issued := ((Json.object members).get? name).bind Json.elements?
    .object (Assoc.put (.text name) (.array (issued.getD [] ++ more)) members)
  | j => j

/-- Each body is answered with the invoices issued in reply to earlier ones added to it. -/
def chain (terms : Terms) (present : Moment) : (ids : Nat → Nat → Uuid) → (issued : List Json) →
    List Json → List (Except Fault Reply)
  | _, _, [] => []
  | ids, issued, body :: bodies =>
    let sent : Body := .value (withIssued issued body)
    let reply := do
      sent.send
      answerBody terms present (ids 0) sent
    let issued := match reply with
      | .ok ⟨200, v⟩ => issued ++ [v]
      | _ => issued
    reply :: chain terms present (fun n => ids (n + 1)) issued bodies

end BillRun.Service
