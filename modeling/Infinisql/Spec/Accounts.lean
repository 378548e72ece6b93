import Infinisql.Ref.UserSchemaMgr

/-!
# What the user manager is for

A table of domains and users, and for each user the digest that was set last.
A login is accepted when the domain exists, the user exists in it, and the
password has that digest; which of the two forms the login comes in makes no
difference, and neither does anything that was asked before about somebody
else. Only the `_global` administrator manages domains and users. A change of
password is for the user it names.

There are no pointers here and nothing is left over between requests.
-/

namespace Infinisql.Spec

open Infinisql.Ref

@[ext] structure Accounts (D : Type) where
  domains : Bytes → Option Int
  users : Int × Bytes → Option Int
  /-- The digest most recently set for a user. -/
  digest : Int × Int → Option D
  lastDomain : Int
  lastUser : Int → Int

namespace Accounts

variable {D : Type} [DecidableEq D] (sha512 : Bytes → D)

/-- The table at the start: the `_global` domain and its administrator. -/
def new (argstring : Bytes) : Accounts D where
  domains := Function.update (fun _ => none) UserSchemaMgr.globalname (some 1)
  users := Function.update (fun _ => none) (1, UserSchemaMgr.adminname)
    (some 1)
  digest := Function.update (fun _ => none) (1, 1) (some (sha512 argstring))
  lastDomain := 1
  lastUser := Function.update (fun _ => 0) 1 1

/-- The user of a domain, if both exist. -/
def user (a : Accounts D) (domainname username : Bytes) :
    Option (Int × Int) :=
  (a.domains domainname).bind fun did =>
    (a.users (did, username)).map fun uid => (did, uid)

/-- Does the login succeed? -/
def accepts (a : Accounts D) (domainname username password : Bytes) : Bool :=
  (a.user domainname username).bind a.digest = some (sha512 password)

/-- Nothing is left of the users of a domain. -/
def clear (a : Accounts D) (did : Int) : Accounts D :=
  { a with
    users := fun key => if key.1 = did then none else a.users key
    digest := fun key => if key.1 = did then none else a.digest key
    lastUser := Function.update a.lastUser did 0 }

/-- The digest of a user is set. -/
def setDigest (a : Accounts D) (did uid : Int) (digest : D) : Accounts D :=
  { a with digest := Function.update a.digest (did, uid) (some digest) }

/-- May the sender manage domains and users? -/
def admin (domainid userid : Int) : Bool := domainid = 1 && userid = 1

/-- One request, and whether it succeeds. -/
def step (a : Accounts D) : UserRequest → Accounts D × Bool
  | .login _ _ domainname username password
  | .operationLogin username domainname password =>
      (a, a.accepts sha512 domainname username password)
  | .changepassword domainid userid password =>
      if (a.digest (domainid, userid)).isSome then
        (a.setDigest domainid userid (sha512 password), true)
      else (a, false)
  | .createdomain domainid userid domainname =>
      if admin domainid userid && (a.domains domainname).isNone then
        let did := a.lastDomain + 1
        ({ a.clear did with
            domains := Function.update a.domains domainname (some did)
            lastDomain := did }, true)
      else (a, false)
  | .createuser domainid userid domainname username password =>
      match a.domains domainname with
      | none => (a, false)
      | some did =>
          if admin domainid userid && (a.users (did, username)).isNone then
            let uid := a.lastUser did + 1
            ({ a.setDigest did uid (sha512 password) with
                users := Function.update a.users (did, username) (some uid)
                lastUser := Function.update a.lastUser did uid }, true)
          else (a, false)
  | .deleteuser domainid userid domainname username =>
      match a.user domainname username with
      | none => (a, false)
      | some (did, uid) =>
          if admin domainid userid then
            ({ a with
                users := Function.update a.users (did, username) none
                digest := Function.update a.digest (did, uid) none }, true)
          else (a, false)
  | .deletedomain domainid userid domainname =>
      match a.domains domainname with
      | none => (a, false)
      | some did =>
          if admin domainid userid then
            ({ a.clear did with
                domains := Function.update a.domains domainname none }, true)
          else (a, false)

end Accounts

end Infinisql.Spec
