import FrontierService.Basic
import FrontierService.Codec
import FrontierService.RamStore
import FrontierService.Query
import FrontierService.Pull
import FrontierService.Blacklist
import FrontierService.Crawl
import FrontierService.MySql
import FrontierService.Server
import FrontierService.Process
import FrontierService.Lmdb
