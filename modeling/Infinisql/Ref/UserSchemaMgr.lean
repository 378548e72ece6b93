import Infinisql.Ref.Table

/-!
# Users, domains and logins

`UserSchemaMgr` keeps the users of each domain and their password digests. A
login comes in two forms: `login` serves the requests of a transaction agent,
`operationLogin` those of a gateway operation.

The maps from user id to password are on the heap, one for each domain, and
the requests hand each other a pointer to one of them in the member
`userIdToPassword`. `deletedomain` deletes the map and leaves that pointer
alone. The member `pwdStruct` is the other thing a request leaves behind: the
password record that was last read or written by any request. Using
`userIdToPassword` before it has been set, or after its map has been deleted,
has no result in the model.

The digest function is a parameter of the model.
-/

namespace Infinisql.Ref

/-- `passwordStruct`. -/
structure PasswordStruct (D : Type) where
  clearpassword : Bytes
  digest : D

abbrev UserNameToUserIdMap := Bytes → Option Int
abbrev UserIdToPasswordMap (D : Type) := Int → Option (PasswordStruct D)

structure UserSchemaMgr (D : Type) where
  domainNameToDomainId : Bytes → Option Int
  domainIdToUserNames : Int → Option UserNameToUserIdMap
  domainIdToUserIds : Int → Option Addr
  /-- The maps that `domainIdToUserIds` points to. -/
  maps : Addr → Option (UserIdToPasswordMap D)
  nextAddr : Addr
  domainIdToNextUserId : Int → Option Int
  userIdToPassword : Option Addr
  pwdStruct : PasswordStruct D
  nextdomainid : Int
  domainid : Int
  userid : Int

/-- The requests, each with the domain and the user its message names. -/
inductive UserRequest
  | login (domainid userid : Int) (domainname username password : Bytes)
  | changepassword (domainid userid : Int) (password : Bytes)
  | createdomain (domainid userid : Int) (domainname : Bytes)
  | createuser (domainid userid : Int) (domainname username password : Bytes)
  | deleteuser (domainid userid : Int) (domainname username : Bytes)
  | deletedomain (domainid userid : Int) (domainname : Bytes)
  | operationLogin (username domainname password : Bytes)
  deriving DecidableEq

/-- The reply: whether its topic or status is the one for success, and the ids
it carries. -/
structure UserReply where
  ok : Bool
  domainid : Int := 0
  userid : Int := 0
  deriving DecidableEq, Repr

namespace UserSchemaMgr

variable {D : Type} [DecidableEq D] (sha512 : Bytes → D)

/-- `TransactionAgent::usmReply`. -/
def usmReply (m : UserSchemaMgr D) (ok : Bool) :
    Option (UserSchemaMgr D × UserReply) :=
  some (m, { ok := ok, domainid := m.domainid, userid := m.userid })

/-- The map behind `domainIdToUserIds[did]`. -/
def userIds (m : UserSchemaMgr D) (did : Int) :
    Option (UserIdToPasswordMap D) :=
  (m.domainIdToUserIds did).bind m.maps

def getnextdomainid (m : UserSchemaMgr D) : Int × UserSchemaMgr D :=
  (m.nextdomainid + 1, { m with nextdomainid := m.nextdomainid + 1 })

def getnextuserid (m : UserSchemaMgr D) (argdomainid : Int) :
    Int × UserSchemaMgr D :=
  match m.domainIdToNextUserId argdomainid with
  | none => (-1, m)
  | some n =>
      let next := Function.update m.domainIdToNextUserId argdomainid
        (some (n + 1))
      (n + 1, { m with domainIdToNextUserId := next })

/-- "_global" -/
def globalname : Bytes := [95, 103, 108, 111, 98, 97, 108]

/-- "admin" -/
def adminname : Bytes := [97, 100, 109, 105, 110]

/-- The constructor, with the password of the `_global` administrator. -/
def new (argstring : Bytes) : UserSchemaMgr D :=
  let pwdStruct := { clearpassword := argstring, digest := sha512 argstring }
  let names := Function.update (fun _ => none) adminname (some 1)
  let uids := Function.update (fun _ => none) 1 (some pwdStruct)
  { domainNameToDomainId := Function.update (fun _ => none) globalname (some 1)
    domainIdToUserNames := Function.update (fun _ => none) 1 (some names)
    domainIdToUserIds := Function.update (fun _ => none) 1 (some 0)
    maps := Function.update (fun _ => none) 0 (some uids)
    nextAddr := 1
    domainIdToNextUserId := Function.update (fun _ => none) 1 (some 1)
    userIdToPassword := none
    pwdStruct := pwdStruct
    nextdomainid := 1
    domainid := 0
    userid := 0 }

def login (m : UserSchemaMgr D) (domainname username password : Bytes) :
    Option (UserSchemaMgr D × UserReply) :=
  match m.domainNameToDomainId domainname with
  | none => m.usmReply false
  | some did =>
      match m.domainIdToUserNames did with
      | none => m.usmReply false
      | some userNameToUserId =>
          match userNameToUserId username with
          | none => m.usmReply false
          | some uid =>
              match m.userIds did with
              | none => none
              | some uids =>
                  let m := { m with
                    userIdToPassword := m.domainIdToUserIds did }
                  match uids uid with
                  | none => m.usmReply false
                  | some pwd =>
                      let m := { m with pwdStruct := pwd }
                      if m.pwdStruct.digest ≠ sha512 password then
                        m.usmReply false
                      else
                        let m := { m with userid := uid, domainid := did }
                        m.usmReply true

/-- The map is the one that the last request left in `userIdToPassword`. -/
def changepassword (m : UserSchemaMgr D) (password : Bytes) :
    Option (UserSchemaMgr D × UserReply) :=
  match m.domainIdToUserIds m.domainid with
  | none => m.usmReply false
  | some _ =>
      match m.userIdToPassword with
      | none => none
      | some addr =>
          match m.maps addr with
          | none => none
          | some uids =>
              match uids m.userid with
              | none => m.usmReply false
              | some pwd =>
                  let uids := Function.update uids m.userid
                    (some { pwd with digest := sha512 password })
                  let maps := Function.update m.maps addr (some uids)
                  { m with maps := maps }.usmReply true

def createdomain (m : UserSchemaMgr D) (domainname : Bytes) :
    Option (UserSchemaMgr D × UserReply) :=
  if m.domainid ≠ 1 ∨ m.userid ≠ 1 then m.usmReply false
  else
    match m.domainNameToDomainId domainname with
    | some _ => m.usmReply false
    | none =>
        let (newdomainid, m) := m.getnextdomainid
        let m := { m with
          domainNameToDomainId := Function.update m.domainNameToDomainId
            domainname (some newdomainid)
          domainIdToUserNames := Function.update m.domainIdToUserNames
            newdomainid (some fun _ => none)
          domainIdToUserIds := Function.update m.domainIdToUserIds
            newdomainid (some m.nextAddr)
          maps := Function.update m.maps m.nextAddr (some fun _ => none)
          nextAddr := m.nextAddr + 1
          domainIdToNextUserId := Function.update m.domainIdToNextUserId
            newdomainid (some 0)
          domainid := newdomainid }
        m.usmReply true

def createuser (m : UserSchemaMgr D) (domainname username password : Bytes) :
    Option (UserSchemaMgr D × UserReply) :=
  if m.domainid ≠ 1 ∨ m.userid ≠ 1 then m.usmReply false
  else
    match m.domainNameToDomainId domainname with
    | none => m.usmReply false
    | some did =>
        match m.domainIdToUserNames did with
        | none => m.usmReply false
        | some userNameToUserId =>
            match userNameToUserId username with
            | some _ => m.usmReply false
            | none =>
                let (newuserid, m) := m.getnextuserid did
                let userNameToUserId := Function.update userNameToUserId
                  username (some newuserid)
                let m := { m with
                  domainIdToUserNames := Function.update m.domainIdToUserNames
                    did (some userNameToUserId)
                  userIdToPassword := m.domainIdToUserIds did
                  pwdStruct :=
                    { m.pwdStruct with digest := sha512 password } }
                match m.domainIdToUserIds did with
                | none => none
                | some addr =>
                    match m.maps addr with
                    | none => none
                    | some uids =>
                        let uids := Function.update uids newuserid
                          (some m.pwdStruct)
                        let m := { m with
                          maps := Function.update m.maps addr (some uids)
                          domainid := did, userid := newuserid }
                        m.usmReply true

def deleteuser (m : UserSchemaMgr D) (domainname username : Bytes) :
    Option (UserSchemaMgr D × UserReply) :=
  if m.domainid ≠ 1 ∨ m.userid ≠ 1 then m.usmReply false
  else
    match m.domainNameToDomainId domainname with
    | none => m.usmReply false
    | some did =>
        let m := { m with domainid := did }
        match m.domainIdToUserNames did with
        | none => m.usmReply false
        | some userNameToUserId =>
            match userNameToUserId username with
            | none => m.usmReply false
            | some uid =>
                let userNameToUserId := Function.update userNameToUserId
                  username none
                let m := { m with
                  userid := uid
                  domainIdToUserNames := Function.update m.domainIdToUserNames
                    did (some userNameToUserId) }
                match m.domainIdToUserIds did with
                | none => m.usmReply false
                | some addr =>
                    match m.maps addr with
                    | none => none
                    | some uids =>
                        let uids := Function.update uids uid none
                        let m := { m with
                          userIdToPassword := some addr
                          maps := Function.update m.maps addr (some uids) }
                        m.usmReply true

/-- `delete` of the map leaves every pointer to it as it is. -/
def deletedomain (m : UserSchemaMgr D) (domainname : Bytes) :
    Option (UserSchemaMgr D × UserReply) :=
  if m.domainid ≠ 1 ∨ m.userid ≠ 1 then m.usmReply false
  else
    match m.domainNameToDomainId domainname with
    | none => m.usmReply false
    | some did =>
        let maps :=
          match m.domainIdToUserIds did with
          | none => m.maps
          | some addr => Function.update m.maps addr none
        let m := { m with
          domainid := did
          maps := maps
          domainIdToUserNames := Function.update m.domainIdToUserNames did none
          domainIdToUserIds := Function.update m.domainIdToUserIds did none
          domainIdToNextUserId := Function.update m.domainIdToNextUserId did
            none
          domainNameToDomainId := Function.update m.domainNameToDomainId
            domainname none }
        m.usmReply true

/-- The digest compared is that of `pwdStruct`; the user's own password
record, which is looked up for it, is not used. -/
def operationLogin (m : UserSchemaMgr D)
    (username domainname password : Bytes) : Option UserReply :=
  match m.domainNameToDomainId domainname with
  | none => some { ok := false }
  | some did =>
      match m.domainIdToUserNames did with
      | none => some { ok := false, domainid := did }
      | some uname2Uid =>
          match uname2Uid username with
          | none => some { ok := false, domainid := did }
          | some uid =>
              match m.userIds did with
              | none => none
              | some uid2Password =>
                  match uid2Password uid with
                  | none =>
                      some { ok := false, domainid := did, userid := uid }
                  | some _pwd =>
                      some
                        { ok := m.pwdStruct.digest = sha512 password
                          domainid := did, userid := uid }

/-- One message. All but the operation set the members `domainid` and
`userid` first. -/
def processRequest (m : UserSchemaMgr D) :
    UserRequest → Option (UserSchemaMgr D × UserReply)
  | .login domainid userid domainname username password =>
      { m with domainid := domainid, userid := userid }.login sha512
        domainname username password
  | .changepassword domainid userid password =>
      { m with domainid := domainid, userid := userid }.changepassword sha512
        password
  | .createdomain domainid userid domainname =>
      { m with domainid := domainid, userid := userid }.createdomain
        domainname
  | .createuser domainid userid domainname username password =>
      { m with domainid := domainid, userid := userid }.createuser sha512
        domainname username password
  | .deleteuser domainid userid domainname username =>
      { m with domainid := domainid, userid := userid }.deleteuser domainname
        username
  | .deletedomain domainid userid domainname =>
      { m with domainid := domainid, userid := userid }.deletedomain
        domainname
  | .operationLogin username domainname password =>
      (m.operationLogin sha512 username domainname password).map
        fun reply => (m, reply)

end UserSchemaMgr

end Infinisql.Ref
